import Mathlib.Data.List.Basic

/-!
# Stores of named settings

A store of settings is changed by `set store name value`, which may refuse, and read by `get`.
`applyAll` makes a list of changes in order and stops at the first refusal. When `set` changes only
the setting it names (`SetsOnly`), a setting that the list does not name keeps its value
(`applyAll_get`), one that it names once has the value of that change
(`applyAll_get_of_mem`), and one that it names several times has the value of the last change
(`applyAll_get_last`). `SetsNamed.value` says the same of a store whose settings have several names
each. `record` is the store that keeps its changes.
-/

namespace Settings

variable {σ ε ν α β : Type*}

/-- The changes of a list, in order. -/
def applyAll (set : σ → ν → α → Except ε σ) : List (ν × α) → σ → Except ε σ
  | [], s => .ok s
  | (n, v) :: changes, s =>
    match set s n v with
    | .ok t => applyAll set changes t
    | .error e => .error e

/-- `set` changes only the setting with the name it is given. -/
def SetsOnly (set : σ → ν → α → Except ε σ) (get : σ → ν → β) : Prop :=
  ∀ s n v t, set s n v = .ok t → ∀ m, m ≠ n → get t m = get s m

variable {set : σ → ν → α → Except ε σ} {get : σ → ν → β}

theorem applyAll_cons {n : ν} {v : α} {changes : List (ν × α)} {s t : σ}
    (h : applyAll set ((n, v) :: changes) s = .ok t) :
    ∃ u, set s n v = .ok u ∧ applyAll set changes u = .ok t := by
  rw [applyAll] at h
  split at h
  · rename_i u hu
    exact ⟨u, hu, h⟩
  · cases h

/-- A setting that is not named keeps its value. -/
theorem applyAll_get (hset : SetsOnly set get) {m : ν} {changes : List (ν × α)} {s t : σ}
    (hm : m ∉ changes.map Prod.fst) (h : applyAll set changes s = .ok t) : get t m = get s m := by
  induction changes generalizing s with
  | nil =>
    obtain rfl := Except.ok.inj h
    rfl
  | cons c changes ih =>
    obtain ⟨u, hu, h⟩ := applyAll_cons h
    rw [List.map_cons, List.mem_cons, not_or] at hm
    rw [ih hm.2 h, hset s c.1 c.2 u hu m hm.1]

/-- A setting that is named once has the value set there. -/
theorem applyAll_get_of_mem (hset : SetsOnly set get) {n : ν} {v : α} {b : β}
    (hback : ∀ s t, set s n v = .ok t → get t n = b) {changes : List (ν × α)} {s t : σ}
    (hnames : (changes.map Prod.fst).Nodup) (hmem : (n, v) ∈ changes)
    (h : applyAll set changes s = .ok t) : get t n = b := by
  induction changes generalizing s with
  | nil => cases hmem
  | cons c changes ih =>
    obtain ⟨u, hu, happ⟩ := applyAll_cons h
    obtain ⟨hc, hnames⟩ := List.nodup_cons.1 hnames
    rcases List.mem_cons.1 hmem with rfl | hmem
    · rw [applyAll_get hset hc happ, hback s u hu]
    · exact ih hnames hmem happ

/-- A setting has the value of the last change that names it. -/
theorem applyAll_get_last [DecidableEq ν] (hset : SetsOnly set get) {reads : ν → α → β}
    (hback : ∀ s n v t, set s n v = .ok t → get t n = reads n v) {changes : List (ν × α)} {s t : σ}
    (h : applyAll set changes s = .ok t) {n : ν} {c : ν × α}
    (hlast : changes.reverse.find? (fun c => c.1 = n) = some c) : get t n = reads n c.2 := by
  induction changes generalizing s with
  | nil => cases hlast
  | cons d changes ih =>
    obtain ⟨u, hu, happ⟩ := applyAll_cons h
    rw [List.reverse_cons, List.find?_append] at hlast
    cases hlater : changes.reverse.find? (fun c => c.1 = n) with
    | some e =>
      rw [hlater, Option.some_or] at hlast
      exact ih happ (hlater.trans hlast)
    | none =>
      rw [hlater, Option.none_or] at hlast
      obtain rfl := List.mem_singleton.1 (List.mem_of_find?_eq_some hlast)
      have hd : c.1 = n := by simpa using List.find?_some hlast
      have hmem : n ∉ changes.map Prod.fst := by
        intro hmem
        obtain ⟨e, he, hen⟩ := List.mem_map.1 hmem
        have hne := List.find?_eq_none.1 hlater e (List.mem_reverse.2 he)
        exact hne (by simpa using hen)
      rw [applyAll_get hset hmem happ, ← hd, hback s c.1 c.2 u hu]

theorem applyAll_append {changes later : List (ν × α)} {s t u : σ}
    (h : applyAll set changes s = .ok t) (hlater : applyAll set later t = .ok u) :
    applyAll set (changes ++ later) s = .ok u := by
  induction changes generalizing s with
  | nil =>
    obtain rfl := Except.ok.inj h
    exact hlater
  | cons c changes ih =>
    obtain ⟨v, hv, happ⟩ := applyAll_cons h
    rw [List.cons_append, applyAll, hv]
    exact ih happ

/-- Setting in a store that keeps its changes. -/
def record (s : List (ν × α)) (n : ν) (v : α) : Except ε (List (ν × α)) := .ok (s ++ [(n, v)])

theorem applyAll_record (changes s : List (ν × α)) :
    applyAll (record (ε := ε)) changes s = .ok (s ++ changes) := by
  induction changes generalizing s with
  | nil => rw [applyAll, List.append_nil]
  | cons c changes ih =>
    have hone : record (ε := ε) s c.1 c.2 = .ok (s ++ [c]) := rfl
    rw [applyAll, hone]
    exact (ih _).trans (by rw [List.append_assoc, List.singleton_append])

/-! ## Settings with several names -/

/-- `set` changes the setting that a name stands for and no other. -/
structure SetsNamed {ω : Type*} (set : σ → ν → α → Except ε σ) (named : ν → ω) (get : σ → ω → β)
    (reads : ω → α → β) : Prop where
  self : ∀ s n v t, set s n v = .ok t → get t (named n) = reads (named n) v
  other : ∀ s n v t, set s n v = .ok t → ∀ o, o ≠ named n → get t o = get s o

/-- The last change of a setting counts, under whatever name. -/
theorem SetsNamed.value {ω : Type*} [DecidableEq ω] {named : ν → ω} {get : σ → ω → β}
    {reads : ω → α → β} (hset : SetsNamed set named get reads) {changes : List (ν × α)} {s t : σ}
    (h : applyAll set changes s = .ok t) (o : ω) :
    get t o = (changes.reverse.find? fun c => named c.1 = o).elim (get s o) fun c =>
      reads o c.2 := by
  induction changes generalizing s with
  | nil =>
    obtain rfl := Except.ok.inj h
    rfl
  | cons c changes ih =>
    obtain ⟨u, hu, happ⟩ := applyAll_cons h
    rw [ih happ, List.reverse_cons, List.find?_append]
    cases hlater : changes.reverse.find? (fun c => named c.1 = o) with
    | some d => rfl
    | none =>
      -- no later change is of this setting
      by_cases hc : named c.1 = o
      · subst hc
        simpa using hset.self s c.1 c.2 u hu
      · simpa [hc] using hset.other s c.1 c.2 u hu o (Ne.symm hc)

end Settings
