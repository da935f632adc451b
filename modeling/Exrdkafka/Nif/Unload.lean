import Exrdkafka.Nif.WakeUp

/-!
# Unloading the library

The destructor of the dispatcher clears `running_`, enqueues a null event and waits for the thread,
while other threads may still call `watch`, `remove` and `signal`. The thread reads `running_`
between two waits, so it may go to wait after the destructor has cleared it. (`do_poll` reads it
too, which ends a poll that would go on.)

* `Inv`: once the destructor waits, the thread either has an event or does not wait.
* `unloads_of_run`: in every run, the thread ends within three of its own steps then, none of which
  is blocked, and the destructor returns.
-/

namespace Exrdkafka.Nif

open Machine

/-! ## The machine -/

/-- Where the thread is in the loop of `process_callbacks`. -/
inductive LoopPlace where
  /-- before the condition of the loop -/
  | head
  /-- past it: it waits, or has taken an event -/
  | inside
  | ended
  deriving DecidableEq

/-- How far the destructor has come. -/
inductive Destructor where
  | notCalled
  /-- `running_` is false -/
  | stopping
  /-- the null event is in the queue -/
  | joining
  | returned
  deriving DecidableEq

/-- The dispatcher with its thread, the threads that call it, and its destructor. -/
structure Loaded where
  callers : Callers
  running : Bool
  place : LoopPlace
  destructor : Destructor

/-- What can happen. -/
inductive LoadedEvent where
  /-- the thread reads `running_` -/
  | check
  /-- a step of the thread in its loop, or of a thread that calls the dispatcher -/
  | callers (e : CallersEvent)
  /-- the next step of the destructor -/
  | destroy

/-- A step of the thread of the dispatcher. -/
def CallersEvent.ofLoop : CallersEvent → Bool
  | .dequeue | .timeOut | .process _ => true
  | .enter .. | .advance .. => false

/-- A step of the thread of the dispatcher. -/
def LoadedEvent.ofLoop : LoadedEvent → Bool
  | .check => true
  | .callers e => e.ofLoop
  | .destroy => false

namespace Loaded

/-- The dispatcher that has just been made. -/
def start : Loaded := ⟨.start, true, .head, .notCalled⟩

/-- The thread makes a step inside its loop; with the critical section, it is at the head again. -/
def goRound (s : Loaded) (callers : Callers) : Loaded :=
  { s with callers, place := if callers.taken = none then .head else .inside }

/-- One step. -/
def step (s : Loaded) : LoadedEvent → Option Loaded
  | .check =>
    if s.place = .head then some { s with place := if s.running then .inside else .ended }
    else none
  | .callers e =>
    if s.destructor = .returned then none
    else if e.ofLoop then
      if s.place = .inside then (s.callers.step e).map s.goRound else none
    else (s.callers.step e).map fun callers => { s with callers }
  | .destroy =>
    match s.destructor with
    | .notCalled => some { s with running := false, destructor := .stopping }
    | .stopping =>
      some { s with
        callers := { s.callers with dispatcher := s.callers.dispatcher.enqueue none }
        destructor := .joining }
    | .joining => if s.place = .ended then some { s with destructor := .returned } else none
    | .returned => none

/-! ## The end of the thread -/

/-- **Unloading returns.** -/
structure Unloads (s : Loaded) : Prop where
  /-- The thread runs until the destructor is called. -/
  runs : s.place = .ended → s.destructor ≠ .notCalled
  /-- While the destructor waits, the thread is never blocked. -/
  awake : s.destructor = .joining → s.place ≠ .ended →
    ∃ e t, e.ofLoop ∧ s.step e = some t
  /-- Whatever other threads do, three steps of the thread are the last. -/
  ends : s.destructor = .joining → ∀ es t, run step s es = some t → es.countP (·.ofLoop) ≤ 3
  /-- The thread alone brings the destructor to its end. -/
  returns : s.destructor = .joining → ∃ es t, run step s es = some t ∧
    t.destructor = .returned

/-- **The invariant.** -/
structure Inv (s : Loaded) : Prop where
  running : s.running = true ↔ s.destructor = .notCalled
  /-- Outside the loop, the thread has no event in hand. -/
  outside : s.place ≠ .inside → s.callers.taken = none
  ended : s.place = .ended → s.running = false
  /-- Once the null event has been sent, a thread that waits has an event. -/
  joining : s.destructor = .joining → s.place = .inside → s.callers.taken = none →
    s.callers.dispatcher.events ≠ []

theorem inv_start : Inv start where
  running := by simp [start]
  outside _ := rfl
  ended h := by cases h
  joining h := by cases h

/-- Calls of other threads leave the thread of the dispatcher where it is, and take no event. -/
theorem callers_step {c c' : Callers} {e : CallersEvent} (he : e.ofLoop = false)
    (h : c.step e = some c') :
    c'.taken = c.taken ∧ (c.dispatcher.events ≠ [] → c'.dispatcher.events ≠ []) := by
  cases e with
  | dequeue | timeOut | process => cases he
  | enter thread call =>
    simp only [Callers.step] at h
    split at h
    · obtain rfl := Option.some.inj h
      exact ⟨rfl, id⟩
    · cases h
  | advance thread now =>
    obtain ⟨place, -, rfl⟩ := Option.map_eq_some_iff.1 h
    cases place with
    | inserted => exact ⟨rfl, fun _ => Callers.enqueue_events_ne_nil _ _⟩
    | erased => exact ⟨rfl, fun _ => Callers.enqueue_events_ne_nil _ _⟩
    | entered call =>
      cases call with
      | signal => exact ⟨rfl, fun _ => Callers.enqueue_events_ne_nil _ _⟩
      | watch => exact ⟨rfl, id⟩
      | remove obj =>
        cases hit : c.dispatcher.objects.lookup obj with
        | none =>
          simp only [Callers.advance, hit]
          exact ⟨rfl, id⟩
        | some it =>
          simp only [Callers.advance, hit]
          exact ⟨rfl, id⟩

/-- The thread takes an event, or handles the one that it has. -/
theorem loop_step {c c' : Callers} {e : CallersEvent} (he : e.ofLoop = true)
    (h : c.step e = some c') :
    c.taken = none ∧ c'.taken ≠ none ∨ c.taken ≠ none ∧ c'.taken = none := by
  cases e with
  | enter | advance => cases he
  | dequeue =>
    simp only [Callers.step] at h
    split at h
    · next htaken _ =>
      obtain rfl := Option.some.inj h
      exact .inl ⟨htaken, by simp⟩
    · cases h
  | timeOut =>
    simp only [Callers.step] at h
    split at h
    · next hwaits =>
      obtain rfl := Option.some.inj h
      exact .inl ⟨hwaits.1, by simp⟩
    · cases h
  | process now =>
    obtain ⟨event, htaken, rfl⟩ := Option.map_eq_some_iff.1 h
    exact .inr ⟨by simp [htaken], rfl⟩

/-- How many steps the thread can still make when `running_` is false. -/
def left (s : Loaded) : ℕ :=
  match s.place with
  | .ended => 0
  | .head => 1
  | .inside => if s.callers.taken = none then 3 else 2

/-- What a step of the thread comes to. -/
theorem goRound_left {s : Loaded} {e : CallersEvent} {c : Callers} (he : e.ofLoop = true)
    (hplace : s.place = .inside) (h : s.callers.step e = some c) :
    (s.goRound c).left + 1 = s.left ∧ ((s.goRound c).place = .inside → c.taken ≠ none) ∧
      (s.goRound c).place ≠ .ended := by
  rcases loop_step he h with ⟨hnone, htaken⟩ | ⟨htaken, hnone⟩
  · simp [goRound, left, hplace, hnone, htaken]
  · simp [goRound, left, hplace, hnone, htaken]

variable {s t : Loaded}

/-- **One step.** -/
theorem Inv.step (h : Inv s) {e : LoadedEvent} (hstep : s.step e = some t) : Inv t := by
  cases e with
  | check =>
    simp only [Loaded.step] at hstep
    split at hstep
    · next hplace =>
      obtain rfl := Option.some.inj hstep
      have hnone := h.outside (by simp [hplace])
      cases hrunning : s.running with
      | true =>
        have hnot := h.running.1 hrunning
        exact ⟨by simp [hnot], fun _ => hnone, by simp, by simp [hnot]⟩
      | false => exact ⟨hrunning ▸ h.running, fun _ => hnone, fun _ => rfl, by simp⟩
    · cases hstep
  | callers e =>
    simp only [Loaded.step] at hstep
    split at hstep
    · cases hstep
    cases he : e.ofLoop with
    | true =>
      rw [he, if_pos rfl] at hstep
      split at hstep
      · next hplace =>
        obtain ⟨c, hc, rfl⟩ := Option.map_eq_some_iff.1 hstep
        obtain ⟨-, hinside, hended⟩ := goRound_left he hplace hc
        refine ⟨h.running, fun hout => ?_, fun hend => absurd hend hended,
          fun _ hin hnone => absurd hnone (hinside hin)⟩
        by_contra htaken
        exact hout (if_neg htaken)
      · cases hstep
    | false =>
      rw [he, if_neg Bool.false_ne_true] at hstep
      obtain ⟨c, hc, rfl⟩ := Option.map_eq_some_iff.1 hstep
      obtain ⟨htaken, hevents⟩ := callers_step he hc
      exact ⟨h.running, fun hout => htaken.trans (h.outside hout), h.ended,
        fun hjoin hin hnone => hevents (h.joining hjoin hin (htaken.symm.trans hnone))⟩
  | destroy =>
    simp only [Loaded.step] at hstep
    split at hstep
    · obtain rfl := Option.some.inj hstep
      exact ⟨by simp, h.outside, fun _ => rfl, by simp⟩
    · next hstop =>
      obtain rfl := Option.some.inj hstep
      have hrunning : s.running ≠ true := fun hrun => by simp [h.running.1 hrun] at hstop
      exact ⟨by simpa using hrunning, h.outside, h.ended,
        fun _ _ _ => Callers.enqueue_events_ne_nil _ _⟩
    · split at hstep
      · next hend =>
        obtain rfl := Option.some.inj hstep
        exact ⟨by simp [h.ended hend], h.outside, h.ended, by simp⟩
      · cases hstep
    · cases hstep

/-- A step when `running_` is false: the thread has one step less to make. -/
theorem left_step (hrunning : s.running = false) {e : LoadedEvent} (hstep : s.step e = some t) :
    t.running = false ∧ t.left + (if e.ofLoop then 1 else 0) = s.left ∧
      (e.ofLoop → t.destructor = s.destructor) := by
  cases e with
  | check =>
    simp only [Loaded.step] at hstep
    split at hstep
    · next hplace =>
      obtain rfl := Option.some.inj hstep
      simp [left, hplace, hrunning, LoadedEvent.ofLoop]
    · cases hstep
  | callers e =>
    simp only [Loaded.step] at hstep
    split at hstep
    · cases hstep
    cases he : e.ofLoop with
    | true =>
      rw [he, if_pos rfl] at hstep
      split at hstep
      · next hplace =>
        obtain ⟨c, hc, rfl⟩ := Option.map_eq_some_iff.1 hstep
        refine ⟨hrunning, ?_, fun _ => rfl⟩
        simpa [LoadedEvent.ofLoop, he] using (goRound_left he hplace hc).1
      · cases hstep
    | false =>
      rw [he, if_neg Bool.false_ne_true] at hstep
      obtain ⟨c, hc, rfl⟩ := Option.map_eq_some_iff.1 hstep
      refine ⟨hrunning, ?_, fun _ => rfl⟩
      simp [left, (callers_step he hc).1, LoadedEvent.ofLoop, he]
  | destroy =>
    simp only [Loaded.step] at hstep
    split at hstep
    · obtain rfl := Option.some.inj hstep
      exact ⟨rfl, rfl, by simp [LoadedEvent.ofLoop]⟩
    · obtain rfl := Option.some.inj hstep
      exact ⟨hrunning, rfl, by simp [LoadedEvent.ofLoop]⟩
    · split at hstep
      · obtain rfl := Option.some.inj hstep
        exact ⟨hrunning, rfl, by simp [LoadedEvent.ofLoop]⟩
      · cases hstep
    · cases hstep

/-- The steps of the thread in a run. -/
theorem count_loop (hrunning : s.running = false) {es : List LoadedEvent}
    (hrun : run step s es = some t) : es.countP (·.ofLoop) + t.left = s.left := by
  induction es generalizing s with
  | nil =>
    obtain rfl := Option.some.inj hrun
    simp
  | cons e es ih =>
    obtain ⟨u, hu, hrest⟩ := run_cons_some hrun
    obtain ⟨hrunning', hleft, -⟩ := left_step hrunning hu
    rw [List.countP_cons, ← hleft, ← ih hrunning' hrest]
    omega

theorem left_le (s : Loaded) : s.left ≤ 3 := by
  unfold left
  split
  · omega
  · omega
  · split <;> omega

theorem step_loop (hdestructor : s.destructor ≠ .returned) (hplace : s.place = .inside)
    {e : CallersEvent} (he : e.ofLoop = true) {c : Callers} (hc : s.callers.step e = some c) :
    s.step (.callers e) = some (s.goRound c) := by
  simp only [Loaded.step, if_neg hdestructor, if_pos he, if_pos hplace, hc, Option.map_some]

/-- The thread is not blocked while the destructor waits. -/
theorem Inv.awake (h : Inv s) (hjoin : s.destructor = .joining) (hplace : s.place ≠ .ended) :
    ∃ e t, e.ofLoop = true ∧ s.step e = some t := by
  have hreturned : s.destructor ≠ .returned := by simp [hjoin]
  cases hp : s.place with
  | ended => exact absurd hp hplace
  | head => exact ⟨.check, _, rfl, if_pos hp⟩
  | inside =>
    cases htaken : s.callers.taken with
    | some event =>
      have hprocess : s.callers.step (.process 0) = some _ := congrArg (Option.map _) htaken
      exact ⟨_, _, rfl, step_loop hreturned hp rfl hprocess⟩
    | none =>
      obtain ⟨event, events, hevents⟩ := List.exists_cons_of_ne_nil (h.joining hjoin hp htaken)
      have hdequeue : s.callers.step .dequeue = some { s.callers with
          taken := some event
          dispatcher := { s.callers.dispatcher with events } } := by
        simp only [Callers.step, htaken, hevents]
      exact ⟨_, _, rfl, step_loop hreturned hp rfl hdequeue⟩

theorem Inv.returns (h : Inv s) (hjoin : s.destructor = .joining) :
    ∃ es t, run Loaded.step s es = some t ∧ t.destructor = .returned := by
  obtain ⟨n, hn⟩ : ∃ n, s.left = n := ⟨_, rfl⟩
  induction n generalizing s with
  | zero =>
    have hended : s.place = .ended := by
      unfold left at hn
      split at hn
      · assumption
      · cases hn
      · split at hn <;> cases hn
    refine ⟨[.destroy], { s with destructor := .returned }, ?_, rfl⟩
    rw [run_singleton]
    simp only [Loaded.step, hjoin, if_pos hended]
  | succ n ih =>
    have hplace : s.place ≠ .ended := by
      intro hended
      simp [left, hended] at hn
    have hrunning : s.running = false := by
      rw [Bool.eq_false_iff]
      exact fun hrun => by simp [h.running.1 hrun] at hjoin
    obtain ⟨e, t, he, hstep⟩ := h.awake hjoin hplace
    obtain ⟨-, hleft, hdestructor⟩ := left_step hrunning hstep
    rw [if_pos he, hn] at hleft
    obtain ⟨es, u, hrun, hu⟩ := ih (h.step hstep) ((hdestructor he).trans hjoin) (by omega)
    exact ⟨e :: es, u, by rw [run_cons, hstep, Option.bind_some, hrun], hu⟩

/-- **The end of the thread**, in any interleaving. -/
theorem unloads_of_run {es : List LoadedEvent} (hrun : run step start es = some s) :
    s.Unloads := by
  have h : Inv s := run_invariant (fun _ _ _ h hstep => h.step hstep) inv_start hrun
  refine ⟨fun hended hnot => ?_, fun hjoin hplace => h.awake hjoin hplace,
    fun hjoin es t hes => ?_, h.returns⟩
  · have hrunning := h.ended hended
    rw [h.running.2 hnot] at hrunning
    cases hrunning
  · have hrunning : s.running = false := by
      rw [Bool.eq_false_iff]
      exact fun hrun => by simp [h.running.1 hrun] at hjoin
    have hcount := count_loop hrunning hes
    have hle := s.left_le
    omega

/-- The thread goes to wait while the destructor clears `running_`, and another thread watches an
instance meanwhile. -/
def sampleUnload : List LoadedEvent :=
  [.check, .destroy, .callers (.enter 0 (.watch 1 true 300000)), .callers (.advance 0 10), .destroy]

theorem unloads_sampleUnload : ∃ s, run step start sampleUnload = some s ∧
    s.destructor = .joining ∧ s.place = .inside ∧ s.Unloads :=
  ⟨_, rfl, rfl, rfl, @unloads_of_run _ sampleUnload rfl⟩

end Loaded

end Exrdkafka.Nif
