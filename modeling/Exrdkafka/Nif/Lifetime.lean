import Exrdkafka.Foundations.Machine
import Exrdkafka.Nif.Clients

/-!
# The life of an instance

What may happen to the instance at an address, stated apart from the code: it is created, watched,
erased and destroyed, it is polled only while it is watched, and it is flushed, closed or destroyed
only while it is not. An address is used again by another instance after that.

* `lifeStep` is this life as a machine, `PolledWhileWatched` is what it is for.
* `polledWhileWatched_of_life`: a history in which every instance has led such a life polls only
  what is watched.
-/

namespace Exrdkafka.Nif

open Machine

/-! ## The life of an instance -/

/-- The instance at an address. -/
inductive Status where
  | absent
  | unwatched
  | watched (isConsumer : Bool)
  deriving DecidableEq

/-- **The life of an instance.** -/
def Status.next : Status → LifeNote → Option Status
  | .absent, .created _ => some .unwatched
  | .unwatched, .inserted _ isConsumer => some (.watched isConsumer)
  | .unwatched, .flushed _ | .unwatched, .closed _ => some .unwatched
  | .unwatched, .destroyed _ => some .absent
  | .watched isConsumer, .polled call =>
    if call = doPoll call.obj isConsumer then some (.watched isConsumer) else none
  | .watched _, .erased _ => some .unwatched
  | _, _ => none

/-- What happens to an instance is a step of its life; other instances stay as they are. -/
def lifeStep (obj : ℕ) (st : Status) (n : LifeNote) : Option Status :=
  if n.obj = obj then st.next n else some st

theorem lifeStep_of_ne {obj : ℕ} {n : LifeNote} (h : n.obj ≠ obj) (st : Status) :
    lifeStep obj st n = some st :=
  if_neg h

theorem lifeStep_of_eq {obj : ℕ} {n : LifeNote} (h : n.obj = obj) (st : Status) :
    lifeStep obj st n = st.next n :=
  if_pos h

/-- How an instance gets to be watched, or stays so. -/
theorem next_eq_watched {st : Status} {n : LifeNote} {isConsumer : Bool}
    (h : st.next n = some (.watched isConsumer)) :
    n = .inserted n.obj isConsumer ∨ st = .watched isConsumer ∧ ∃ call, n = .polled call := by
  cases st with
  | absent => cases n <;> cases h
  | unwatched =>
    cases n <;> cases h
    exact .inl rfl
  | watched k =>
    cases n with
    | polled call =>
      simp only [Status.next] at h
      split_ifs at h
      exact .inr ⟨Option.some.inj h, call, rfl⟩
    | _ => cases h

/-- An instance that is watched has been inserted and not erased since. -/
theorem inserted_of_watched {obj : ℕ} {history : List LifeNote} {isConsumer : Bool}
    (h : run (lifeStep obj) .absent history = some (.watched isConsumer)) :
    ∃ before after, history = before ++ .inserted obj isConsumer :: after ∧
      .erased obj ∉ after := by
  refine run_history (P := fun history st => st = .watched isConsumer →
    ∃ before after, history = before ++ .inserted obj isConsumer :: after ∧ .erased obj ∉ after)
    (fun h => by cases h) (fun history st n st' ih hstep hst' => ?_) h rfl
  subst hst'
  have hlater (hst : st = .watched isConsumer) (hn : n ≠ .erased obj) :
      ∃ before after, history ++ [n] = before ++ .inserted obj isConsumer :: after ∧
        .erased obj ∉ after := by
    obtain ⟨before, after, rfl, hafter⟩ := ih hst
    refine ⟨before, after ++ [n], by simp, fun hmem => ?_⟩
    rcases List.mem_append.1 hmem with hmem | hmem
    · exact hafter hmem
    · exact hn (List.mem_singleton.1 hmem).symm
  by_cases hobj : n.obj = obj
  · rw [lifeStep_of_eq hobj] at hstep
    rcases next_eq_watched hstep with hn | ⟨hst, call, rfl⟩
    · rw [hobj] at hn
      exact ⟨history, [], by rw [hn], nofun⟩
    · exact hlater hst nofun
  · rw [lifeStep_of_ne hobj] at hstep
    refine hlater (Option.some.inj hstep) ?_
    rintro rfl
    exact hobj rfl

/-- An instance that is watched stays so until it is erased. -/
theorem watched_until_erased {obj : ℕ} {isConsumer : Bool} {st : Status} {after : List LifeNote}
    (h : run (lifeStep obj) (.watched isConsumer) after = some st)
    (hafter : .erased obj ∉ after) : st = .watched isConsumer := by
  refine run_fixed (fun n hn u hu => ?_) h
  by_cases hobj : n.obj = obj
  · rw [lifeStep_of_eq hobj] at hu
    cases n with
    | polled call =>
      simp only [Status.next] at hu
      split_ifs at hu
      exact (Option.some.inj hu).symm
    | erased obj' =>
      obtain rfl : obj' = obj := hobj
      exact absurd hn hafter
    | _ => cases hu
  · rw [lifeStep_of_ne hobj] at hu
    exact (Option.some.inj hu).symm

/-- An instance that is absent stays so until it is created. -/
theorem absent_until_created {obj : ℕ} {st : Status} {after : List LifeNote}
    (h : run (lifeStep obj) .absent after = some st) (hafter : .created obj ∉ after) :
    st = .absent := by
  refine run_fixed (fun n hn u hu => ?_) h
  by_cases hobj : n.obj = obj
  · rw [lifeStep_of_eq hobj] at hu
    cases n with
    | created obj' =>
      obtain rfl : obj' = obj := hobj
      exact absurd hn hafter
    | _ => cases hu
  · rw [lifeStep_of_ne hobj] at hu
    exact (Option.some.inj hu).symm

/-- An instance that has been inserted and not erased since is watched. -/
theorem watched_of_inserted {obj : ℕ} {isConsumer : Bool} {st : Status}
    {before after : List LifeNote}
    (h : run (lifeStep obj) .absent (before ++ .inserted obj isConsumer :: after) = some st)
    (hafter : .erased obj ∉ after) : st = .watched isConsumer := by
  rw [run_append] at h
  obtain ⟨st₁, -, hrest⟩ := Option.bind_eq_some_iff.1 h
  obtain ⟨st₂, hst₂, hrest⟩ := run_cons_some hrest
  have hwatched : st₂ = .watched isConsumer := by
    have hnext := (lifeStep_of_eq rfl st₁).symm.trans hst₂
    cases st₁ <;> cases hnext
    rfl
  rw [hwatched] at hrest
  exact watched_until_erased hrest hafter

/-- An address whose instance has been destroyed, with none created there since, is free. -/
theorem absent_of_destroyed {obj : ℕ} {st : Status} {before after : List LifeNote}
    (h : run (lifeStep obj) .absent (before ++ .destroyed obj :: after) = some st)
    (hafter : .created obj ∉ after) : st = .absent := by
  rw [run_append] at h
  obtain ⟨st₁, -, hrest⟩ := Option.bind_eq_some_iff.1 h
  obtain ⟨st₂, hst₂, hrest⟩ := run_cons_some hrest
  have habsent : st₂ = .absent := by
    have hnext := (lifeStep_of_eq rfl st₁).symm.trans hst₂
    cases st₁ <;> cases hnext
    rfl
  rw [habsent] at hrest
  exact absent_until_created hrest hafter

/-! ## Histories -/

/-- A flush, a close or a destruction. -/
def LifeNote.ends : LifeNote → Bool
  | .flushed _ | .closed _ | .destroyed _ => true
  | _ => false

theorem next_watched_of_ends {n : LifeNote} (h : n.ends = true) (isConsumer : Bool) :
    (Status.watched isConsumer).next n = none := by
  cases n <;> first | rfl | cases h

/-- **Only what is watched is polled.** -/
structure PolledWhileWatched (history : List LifeNote) : Prop where
  /-- A poll comes after the insertion of the instance, with no erasure in between, and is made with
  the call for its kind. -/
  polled : ∀ pre call post, history = pre ++ .polled call :: post →
    ∃ isConsumer before after, pre = before ++ .inserted call.obj isConsumer :: after ∧
      .erased call.obj ∉ after ∧ call = doPoll call.obj isConsumer
  /-- An instance that has been inserted is erased before it is flushed, closed or destroyed. -/
  erased : ∀ pre n post, history = pre ++ n :: post → n.ends = true →
    ∀ before isConsumer after, pre = before ++ .inserted n.obj isConsumer :: after →
      .erased n.obj ∈ after
  /-- No poll follows the destruction of an instance, until another is created at its address. -/
  destroyed : ∀ pre obj mid call post,
    history = pre ++ .destroyed obj :: (mid ++ .polled call :: post) → call.obj = obj →
      .created obj ∈ mid

/-- The status of the instance before a note of the history. -/
theorem status_before {history : List LifeNote}
    (h : ∀ obj, ∃ st, run (lifeStep obj) .absent history = some st) {obj : ℕ}
    {pre post : List LifeNote} {n : LifeNote} (hsplit : history = pre ++ n :: post)
    (hobj : n.obj = obj) :
    ∃ st st', run (lifeStep obj) .absent pre = some st ∧ st.next n = some st' := by
  obtain ⟨st, hst⟩ := h obj
  rw [hsplit, run_append] at hst
  obtain ⟨st₁, hst₁, hrest⟩ := Option.bind_eq_some_iff.1 hst
  obtain ⟨st₂, hst₂, -⟩ := run_cons_some hrest
  exact ⟨st₁, st₂, hst₁, by rwa [lifeStep_of_eq hobj] at hst₂⟩

theorem polledWhileWatched_of_life {history : List LifeNote}
    (h : ∀ obj, ∃ st, run (lifeStep obj) .absent history = some st) :
    PolledWhileWatched history := by
  refine ⟨fun pre call post hsplit => ?_,
    fun pre n post hsplit hends before isConsumer after hpre => ?_,
    fun pre obj mid call post hsplit hobj => ?_⟩
  · obtain ⟨st, st', hst, hnext⟩ := status_before h hsplit rfl
    cases st with
    | watched isConsumer =>
      obtain ⟨before, after, hpre, hafter⟩ := inserted_of_watched hst
      simp only [Status.next] at hnext
      split_ifs at hnext with hcall
      exact ⟨isConsumer, before, after, hpre, hafter, hcall⟩
    | _ => cases hnext
  · obtain ⟨st, st', hst, hnext⟩ := status_before h hsplit rfl
    by_contra hafter
    rw [hpre] at hst
    rw [watched_of_inserted hst hafter, next_watched_of_ends hends] at hnext
    cases hnext
  · by_contra hmid
    have hsplit' : history = (pre ++ .destroyed obj :: mid) ++ .polled call :: post := by
      rw [hsplit, List.append_assoc]
      rfl
    obtain ⟨st, st', hst, hnext⟩ := status_before h hsplit' hobj
    rw [absent_of_destroyed hst hmid] at hnext
    cases hnext

end Exrdkafka.Nif
