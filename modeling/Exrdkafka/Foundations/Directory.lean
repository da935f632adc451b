import Mathlib.Data.List.AList
import Mathlib.Data.List.Nodup

/-!
# Directories of live resources

A directory maps keys to the resources filed under them. It agrees with a list of live resources,
each with its key, when it holds exactly those (`Agrees`). Filing may overwrite: `insertAll` files a
list of resources one after the other.

* `agrees_append_insertAll_iff`: after filing new resources the directory still agrees exactly when
  their keys are distinct and none of them was in use.
* `agrees_empty_iff`: the empty directory agrees only with no live resource.
-/

namespace Directory

variable {κ α : Type*} [DecidableEq κ]

/-- File the resources one after the other. -/
def insertAll (m : AList fun _ : κ => α) (kvs : List (κ × α)) : AList fun _ : κ => α :=
  kvs.foldl (fun m kv => m.insert kv.1 kv.2) m

@[simp] theorem insertAll_cons (m : AList fun _ : κ => α) (kv : κ × α) (kvs : List (κ × α)) :
    insertAll m (kv :: kvs) = insertAll (m.insert kv.1 kv.2) kvs := rfl

theorem lookup_insertAll_of_notMem {m : AList fun _ : κ => α} {kvs : List (κ × α)} {k : κ}
    (h : k ∉ kvs.map Prod.fst) : (insertAll m kvs).lookup k = m.lookup k := by
  induction kvs generalizing m with
  | nil => rfl
  | cons kv kvs ih =>
    rw [List.map_cons, List.mem_cons, not_or] at h
    rw [insertAll_cons, ih h.2, AList.lookup_insert_ne h.1]

theorem lookup_insertAll_of_mem {m : AList fun _ : κ => α} {kvs : List (κ × α)} {k : κ} {a : α}
    (hkeys : (kvs.map Prod.fst).Nodup) (h : (k, a) ∈ kvs) :
    (insertAll m kvs).lookup k = some a := by
  induction kvs generalizing m with
  | nil => cases h
  | cons kv kvs ih =>
    obtain ⟨hkv, hkeys⟩ := List.nodup_cons.1 hkeys
    rcases List.mem_cons.1 h with rfl | h
    · rw [insertAll_cons, lookup_insertAll_of_notMem hkv, AList.lookup_insert]
    · exact ih hkeys h

theorem mem_of_lookup_insertAll {m : AList fun _ : κ => α} {kvs : List (κ × α)} {k : κ} {a : α}
    (h : (insertAll m kvs).lookup k = some a) : (k, a) ∈ kvs ∨ m.lookup k = some a := by
  induction kvs generalizing m with
  | nil => exact Or.inr h
  | cons kv kvs ih =>
    rcases ih h with h | h
    · exact Or.inl (List.mem_cons_of_mem _ h)
    · by_cases hk : k = kv.1
      · subst hk
        rw [AList.lookup_insert] at h
        exact Or.inl (Option.some.inj h ▸ List.mem_cons_self)
      · rw [AList.lookup_insert_ne hk] at h
        exact Or.inr h

/-- The directory holds exactly the live resources, each under its key. -/
def Agrees (live : List (κ × α)) (m : AList fun _ : κ => α) : Prop :=
  ∀ k a, (k, a) ∈ live ↔ m.lookup k = some a

variable {live kvs : List (κ × α)} {m : AList fun _ : κ => α}

theorem Agrees.mem_iff (h : Agrees live m) {k : κ} : k ∈ m ↔ k ∈ live.map Prod.fst := by
  rw [← AList.lookup_isSome, Option.isSome_iff_exists, List.mem_map]
  constructor
  · rintro ⟨a, ha⟩
    exact ⟨(k, a), (h k a).2 ha, rfl⟩
  · rintro ⟨⟨k, a⟩, ha, rfl⟩
    exact ⟨a, (h k a).1 ha⟩

/-- No two live resources have the same key. -/
theorem Agrees.keys_nodup (h : Agrees live m) (hnd : live.Nodup) : (live.map Prod.fst).Nodup := by
  refine hnd.map_on ?_
  rintro ⟨k, a⟩ ha ⟨k', b⟩ hb (rfl : k = k')
  have hab : some a = some b := ((h k a).1 ha).symm.trans ((h k b).1 hb)
  rw [Option.some.inj hab]

/-- The entries of the directory are the live resources, in some order. -/
theorem Agrees.perm (h : Agrees live m) (hnd : live.Nodup) :
    (m.entries.map fun e => (e.1, e.2)).Perm live := by
  have hentries : (m.entries.map fun e => (e.1, e.2)).Nodup :=
    (List.NodupKeys.nodup m.nodupKeys).map fun e e' he => by
      obtain ⟨k, a⟩ := e
      obtain ⟨k', a'⟩ := e'
      simpa using he
  refine (List.perm_ext_iff_of_nodup hentries hnd).2 fun ⟨k, a⟩ => ?_
  rw [h k a, ← Option.mem_def, AList.mem_lookup_iff]
  simp

/-- **Filing.** The directory agrees after new resources are filed exactly when their keys are
distinct and not in use. -/
theorem agrees_append_insertAll_iff (h : Agrees live m) (hnd : (live ++ kvs).Nodup) :
    Agrees (live ++ kvs) (insertAll m kvs) ↔
      (kvs.map Prod.fst).Nodup ∧ ∀ k ∈ kvs.map Prod.fst, k ∉ m := by
  constructor
  · intro h'
    have hkeys := h'.keys_nodup hnd
    rw [List.map_append, List.nodup_append'] at hkeys
    exact ⟨hkeys.2.1, fun k hk hm => hkeys.2.2 (h.mem_iff.1 hm) hk⟩
  · rintro ⟨hkeys, hnew⟩ k a
    rw [List.mem_append]
    by_cases hk : k ∈ kvs.map Prod.fst
    · have hlive : (k, a) ∉ live := fun ha => hnew k hk (h.mem_iff.2 (List.mem_map_of_mem ha))
      obtain ⟨⟨k', b⟩, hb, rfl⟩ := List.mem_map.1 hk
      rw [lookup_insertAll_of_mem hkeys hb, or_iff_right hlive]
      refine ⟨fun ha => ?_, fun hab => Option.some.inj hab ▸ hb⟩
      exact (lookup_insertAll_of_mem (m := m) hkeys hb).symm.trans
        (lookup_insertAll_of_mem hkeys ha)
    · have hkvs : (k, a) ∉ kvs := fun ha => hk (List.mem_map_of_mem ha)
      rw [lookup_insertAll_of_notMem hk, or_iff_left hkvs]
      exact h k a

theorem agrees_empty_iff : Agrees live (∅ : AList fun _ : κ => α) ↔ live = [] := by
  constructor
  · intro h
    rw [List.eq_nil_iff_forall_not_mem]
    rintro ⟨k, a⟩ ha
    simpa using (h k a).1 ha
  · rintro rfl k a
    simp

end Directory
