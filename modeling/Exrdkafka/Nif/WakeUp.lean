import Mathlib.Logic.Function.Basic
import Exrdkafka.Foundations.Machine
import Exrdkafka.Nif.Clients
import Exrdkafka.Nif.Sweep

/-!
# Waking the dispatcher

The thread of the dispatcher computes the time to wait under the lock and waits with it after it has
given the lock up, so that the table may have changed when it waits. Any number of other threads
call `watch`, `remove` and `signal` meanwhile; each critical section and each enqueue or dequeue is
one step.

* `WakesUp`: a thread that waits without a timeout has an event to come for every watched instance.
* `wakesUp_of_run`: this holds in every state of every run, since the table can only grow behind a
  wait without a timeout by a `watch` that has yet to enqueue.
-/

namespace Exrdkafka.Nif

open Machine QueueCallbacksDispatcher

/-! ## The machine -/

/-- A call on another thread. -/
inductive Call where
  | watch (obj : ℕ) (isConsumer : Bool) (maxPollInterval : UInt64)
  | remove (obj : ℕ)
  | signal (obj : ℕ)

/-- How far a call has come. -/
inductive Place where
  | entered (call : Call)
  /-- `watch`, between its critical section and its `enqueue(nullptr)` -/
  | inserted (obj : ℕ)
  /-- `remove`, between its critical section and its `enqueue(nullptr)` -/
  | erased (obj : ℕ)

/-- The dispatcher, its thread and the threads that call it. -/
structure Callers where
  dispatcher : QueueCallbacksDispatcher
  /-- the event that the dispatcher has taken off its queue, null for a wait that timed out; none
  while its thread waits -/
  taken : Option (Option ℕ)
  /-- the call that a thread is in -/
  places : ℕ → Option Place

/-- What can happen. -/
inductive CallersEvent where
  /-- a thread calls the dispatcher -/
  | enter (thread : ℕ) (call : Call)
  /-- a thread takes the next step of its call -/
  | advance (thread : ℕ) (now : UInt64)
  | dequeue
  /-- the wait of the dispatcher times out -/
  | timeOut
  /-- the critical section of the loop of the dispatcher -/
  | process (now : UInt64)

namespace Callers

/-- The dispatcher when its thread starts. -/
def start : Callers := ⟨.init, none, fun _ => none⟩

/-- A thread moves on in its call, or leaves it. -/
def goOn (s : Callers) (thread : ℕ) (place : Option Place) : Callers :=
  { s with places := Function.update s.places thread place }

/-- The next step of a thread, from where it is in its call. -/
def advance (s : Callers) (thread : ℕ) (now : UInt64) : Place → Callers
  | .entered (.watch obj isConsumer maxPollInterval) =>
    { s.goOn thread (some (.inserted obj)) with
      dispatcher := s.dispatcher.watchSection obj isConsumer maxPollInterval now }
  | .entered (.remove obj) =>
    match s.dispatcher.objects.lookup obj with
    | none => s.goOn thread none
    | some _ =>
      { s.goOn thread (some (.erased obj)) with dispatcher := s.dispatcher.removeSection obj }
  | .entered (.signal obj) =>
    { s.goOn thread none with dispatcher := s.dispatcher.enqueue (some obj) }
  | .inserted _ | .erased _ => { s.goOn thread none with dispatcher := s.dispatcher.enqueue none }

/-- One step. A negative timeout is an infinite wait. -/
def step (s : Callers) : CallersEvent → Option Callers
  | .enter thread call =>
    if s.places thread = none then some (s.goOn thread (some (.entered call))) else none
  | .advance thread now => (s.places thread).map (s.advance thread now)
  | .dequeue =>
    match s.taken, s.dispatcher.events with
    | none, event :: events =>
      some { s with
        taken := some event
        dispatcher := { s.dispatcher with events } }
    | _, _ => none
  | .timeOut =>
    if s.taken = none ∧ 0 ≤ s.dispatcher.pollTimeout then some { s with taken := some none }
    else none
  | .process now =>
    s.taken.map fun event =>
      { s with
        dispatcher := (s.dispatcher.processCallback now event).1
        taken := none }

/-! ## Waiting -/

/-- Some `watch` has inserted the instance and has not done its enqueue. -/
def Inserted (s : Callers) (obj : ℕ) : Prop :=
  ∃ thread, s.places thread = some (.inserted obj)

/-- No wait without a timeout goes with a watched instance and no event, now or to come from the
`watch` that inserted the instance. -/
def WakesUp (s : Callers) : Prop :=
  s.taken = none → s.dispatcher.pollTimeout = -1 → ∀ obj ∈ s.dispatcher.objects,
    s.dispatcher.events ≠ [] ∨ s.Inserted obj

/-- A thread that is not between the two steps of `watch` may go on. -/
theorem Inserted.goOn {s : Callers} {obj thread : ℕ} (h : s.Inserted obj) (place : Option Place)
    (hplace : ∀ obj', s.places thread ≠ some (.inserted obj')) :
    (s.goOn thread place).Inserted obj := by
  obtain ⟨other, hother⟩ := h
  have hne : other ≠ thread := fun heq => hplace obj (heq ▸ hother)
  exact ⟨other, (Function.update_of_ne hne _ _).trans hother⟩

theorem inserted_goOn (s : Callers) (thread obj : ℕ) :
    (s.goOn thread (some (.inserted obj))).Inserted obj :=
  ⟨thread, Function.update_self _ _ _⟩

theorem enqueue_events_ne_nil (d : QueueCallbacksDispatcher) (event : Option ℕ) :
    (d.enqueue event).events ≠ [] := by
  simp [enqueue]

theorem wakesUp_start : start.WakesUp := by
  intro _ _ obj hobj
  exact absurd hobj (AList.notMem_empty obj)

/-- A thread that is not between the two steps of `watch` may shrink the table. -/
theorem WakesUp.goOn {s : Callers} (h : s.WakesUp) {objects : Objects}
    (hobjects : ∀ obj ∈ objects, obj ∈ s.dispatcher.objects) {thread : ℕ}
    (hplace : ∀ obj, s.places thread ≠ some (.inserted obj)) (place : Option Place) :
    WakesUp { s.goOn thread place with dispatcher := { s.dispatcher with objects } } := by
  intro htaken htimeout obj hobj
  exact (h htaken htimeout obj (hobjects obj hobj)).imp_right (·.goOn place hplace)

theorem WakesUp.watch {s : Callers} (h : s.WakesUp) {thread : ℕ}
    (hplace : ∀ obj, s.places thread ≠ some (.inserted obj)) (obj : ℕ) (isConsumer : Bool)
    (maxPollInterval now : UInt64) :
    WakesUp { s.goOn thread (some (.inserted obj)) with
      dispatcher := s.dispatcher.watchSection obj isConsumer maxPollInterval now } := by
  intro htaken htimeout obj' hobj
  rcases (AList.mem_insert _).1 hobj with rfl | hmem
  · exact Or.inr (s.inserted_goOn thread obj')
  · exact (h htaken htimeout obj' hmem).imp_right (·.goOn _ hplace)

theorem WakesUp.advance {s : Callers} (h : s.WakesUp) {thread : ℕ} {place : Place}
    (hplace : s.places thread = some place) (now : UInt64) :
    (s.advance thread now place).WakesUp := by
  cases place with
  | inserted => exact fun _ _ _ _ => Or.inl (enqueue_events_ne_nil _ _)
  | erased => exact fun _ _ _ _ => Or.inl (enqueue_events_ne_nil _ _)
  | entered call =>
    have hentered : ∀ obj, s.places thread ≠ some (.inserted obj) := by simp [hplace]
    cases call with
    | signal => exact fun _ _ _ _ => Or.inl (enqueue_events_ne_nil _ _)
    | watch obj isConsumer maxPollInterval => exact h.watch hentered _ _ _ _
    | remove obj =>
      cases hit : s.dispatcher.objects.lookup obj with
      | none =>
        simp only [Callers.advance, hit]
        exact h.goOn (fun _ hobj => hobj) hentered _
      | some it =>
        simp only [Callers.advance, hit]
        exact h.goOn (fun _ hobj => (AList.mem_erase.1 hobj).2) hentered _

/-- The check computes an infinite wait for an empty table only. -/
theorem wakesUp_process (s : Callers) (now : UInt64) (event : Option ℕ) :
    WakesUp { s with dispatcher := (s.dispatcher.processCallback now event).1, taken := none } := by
  intro _ htimeout obj hobj
  have hempty : (pollSignalled s.dispatcher.objects now event).1 = ∅ :=
    timeout_eq_neg_one_iff.1 htimeout
  have hlookup : ((s.dispatcher.processCallback now event).1.objects.lookup obj).isSome :=
    AList.lookup_isSome.2 hobj
  simp only [processCallback, lookup_checkMaxPollIntervalMs, hempty] at hlookup
  cases hlookup

/-- **One step keeps the dispatcher awake.** -/
theorem WakesUp.step {s t : Callers} {e : CallersEvent} (h : s.WakesUp)
    (hstep : s.step e = some t) : t.WakesUp := by
  cases e with
  | enter thread call =>
    simp only [Callers.step] at hstep
    split_ifs at hstep with hplace
    obtain rfl := Option.some.inj hstep
    exact h.goOn (fun _ hobj => hobj) (by simp [hplace]) _
  | advance thread now =>
    obtain ⟨place, hplace, rfl⟩ := Option.map_eq_some_iff.1 hstep
    exact h.advance hplace now
  | dequeue =>
    simp only [Callers.step] at hstep
    split at hstep
    · obtain rfl := Option.some.inj hstep
      exact fun htaken => by cases htaken
    · cases hstep
  | timeOut =>
    simp only [Callers.step] at hstep
    split_ifs at hstep
    obtain rfl := Option.some.inj hstep
    exact fun htaken => by cases htaken
  | process now =>
    obtain ⟨event, -, rfl⟩ := Option.map_eq_some_iff.1 hstep
    exact wakesUp_process s now event

/-! ## Intervals in the range of librdkafka -/

end Callers

/-- The largest `max.poll.interval.ms` of librdkafka is a day. -/
def Call.InRange : Call → Prop
  | .watch _ _ maxPollInterval => maxPollInterval.toNat ≤ 86400000
  | _ => True

/-- The call that is made is in the range. -/
def CallersEvent.InRange : CallersEvent → Prop
  | .enter _ call => call.InRange
  | _ => True

namespace Callers

/-- What holds while all intervals are in the range: a wait is finite or that of an empty table. -/
structure Timely (s : Callers) : Prop where
  bounded : s.dispatcher.objects.Bounded
  entered : ∀ thread call, s.places thread = some (.entered call) → call.InRange
  timeout : s.dispatcher.pollTimeout = -1 ∨ 0 ≤ s.dispatcher.pollTimeout

theorem timely_start : start.Timely where
  bounded := by
    rintro it ⟨obj, hit⟩
    cases hit
  entered := by
    intro thread call h
    cases h
  timeout := Or.inl rfl

/-- A step of a call leaves the timeout alone. -/
theorem Timely.goOn {s : Callers} (h : s.Timely) {d : QueueCallbacksDispatcher}
    (hbounded : d.objects.Bounded) (htimeout : d.pollTimeout = s.dispatcher.pollTimeout)
    (thread : ℕ) (place : Option Place)
    (hplace : ∀ call, place = some (.entered call) → call.InRange) :
    Timely { s.goOn thread place with dispatcher := d } where
  bounded := hbounded
  entered other call hother := by
    change Function.update s.places thread place other = some (.entered call) at hother
    by_cases heq : other = thread
    · rw [heq, Function.update_self] at hother
      exact hplace call hother
    · rw [Function.update_of_ne heq] at hother
      exact h.entered other call hother
  timeout := htimeout ▸ h.timeout

theorem Timely.advance {s : Callers} (h : s.Timely) {thread : ℕ} {place : Place}
    (hplace : s.places thread = some place) (now : UInt64) :
    (s.advance thread now place).Timely := by
  cases place with
  | inserted => exact h.goOn (d := s.dispatcher.enqueue none) h.bounded rfl thread none (by simp)
  | erased => exact h.goOn (d := s.dispatcher.enqueue none) h.bounded rfl thread none (by simp)
  | entered call =>
    cases call with
    | signal obj =>
      exact h.goOn (d := s.dispatcher.enqueue (some obj)) h.bounded rfl thread none (by simp)
    | watch obj isConsumer maxPollInterval =>
      have hmax : maxPollInterval.toNat ≤ 86400000 := h.entered thread _ hplace
      have hhalf : (maxPollInterval / 2).toNat = maxPollInterval.toNat / 2 := UInt64.toNat_div _ _
      have hbounded :
          (s.dispatcher.watchSection obj isConsumer maxPollInterval now).objects.Bounded :=
        h.bounded.insert obj (by simp only [hhalf]; omega)
      exact h.goOn hbounded rfl thread (some (.inserted obj)) (by simp)
    | remove obj =>
      cases hit : s.dispatcher.objects.lookup obj with
      | none =>
        simp only [Callers.advance, hit]
        exact h.goOn (d := s.dispatcher) h.bounded rfl thread none (by simp)
      | some it =>
        simp only [Callers.advance, hit]
        have hbounded : (s.dispatcher.removeSection obj).objects.Bounded := h.bounded.erase obj
        exact h.goOn hbounded rfl thread (some (.erased obj)) (by simp)

/-- The check computes a wait that is finite, or an infinite one for an empty table. -/
theorem Timely.process {s : Callers} (h : s.Timely) (now : UInt64) (event : Option ℕ) :
    Timely { s with dispatcher := (s.dispatcher.processCallback now event).1, taken := none } where
  bounded := (polls_processCallback s.dispatcher now event).bounded h.bounded
  entered := h.entered
  timeout := by
    have hbounded := (polls_pollSignalled s.dispatcher.objects now event).bounded h.bounded
    have hexact := exactSweep_checkMaxPollIntervalMs hbounded now
    rcases eq_or_ne (pollSignalled s.dispatcher.objects now event).1 ∅ with hempty | hne
    · exact Or.inl (hexact.infinite.2 hempty)
    · exact Or.inr (hexact.bounds hne).1

theorem Timely.step {s t : Callers} {e : CallersEvent} (h : s.Timely)
    (hstep : s.step e = some t) (hrange : e.InRange) : t.Timely := by
  cases e with
  | enter thread call =>
    simp only [Callers.step] at hstep
    split_ifs at hstep
    obtain rfl := Option.some.inj hstep
    exact h.goOn (d := s.dispatcher) h.bounded rfl thread (some (.entered call)) (by
      rintro _ ⟨⟩
      exact hrange)
  | advance thread now =>
    obtain ⟨place, hplace, rfl⟩ := Option.map_eq_some_iff.1 hstep
    exact h.advance hplace now
  | dequeue =>
    simp only [Callers.step] at hstep
    split at hstep
    · obtain rfl := Option.some.inj hstep
      exact ⟨h.bounded, h.entered, h.timeout⟩
    · cases hstep
  | timeOut =>
    simp only [Callers.step] at hstep
    split_ifs at hstep
    obtain rfl := Option.some.inj hstep
    exact ⟨h.bounded, h.entered, h.timeout⟩
  | process now =>
    obtain ⟨event, -, rfl⟩ := Option.map_eq_some_iff.1 hstep
    exact h.process now event

theorem timely_of_run {es : List CallersEvent} {s : Callers} (hrange : ∀ e ∈ es, e.InRange)
    (hrun : run step start es = some s) : s.Timely :=
  (always_of_along (fun _ _ _ h hstep hrange => h.step hstep hrange) timely_start
    (along_of_forall_mem fun e he _ => hrange e he)).last hrun

/-! ## No lost wake-up -/

/-- What the dispatcher is for: a watched instance has an event or a timeout to come. -/
structure NoLostWakeUp (es : List CallersEvent) (s : Callers) : Prop where
  /-- before a wait without a timeout -/
  asleep : s.taken = none → s.dispatcher.pollTimeout = -1 → s.dispatcher.objects ≠ ∅ →
    s.dispatcher.events ≠ [] ∨ ∃ obj ∈ s.dispatcher.objects, s.Inserted obj
  /-- once `watch` has returned -/
  returned : s.taken = none → ∀ obj ∈ s.dispatcher.objects, ¬ s.Inserted obj →
    s.dispatcher.events ≠ [] ∨ s.dispatcher.pollTimeout ≠ -1
  /-- the timeout is finite for the wait, too -/
  finite : (∀ e ∈ es, e.InRange) → s.taken = none → ∀ obj ∈ s.dispatcher.objects,
    ¬ s.Inserted obj → s.dispatcher.events ≠ [] ∨ 0 ≤ s.dispatcher.pollTimeout

/-- **No wake-up is lost**, in any interleaving. -/
theorem noLostWakeUp_of_run {es : List CallersEvent} {s : Callers}
    (hrun : run step start es = some s) : NoLostWakeUp es s := by
  have hwakes : s.WakesUp := run_invariant (fun _ _ _ h hstep => h.step hstep) wakesUp_start hrun
  have hreturned : s.taken = none → ∀ obj ∈ s.dispatcher.objects, ¬ s.Inserted obj →
      s.dispatcher.events ≠ [] ∨ s.dispatcher.pollTimeout ≠ -1 := by
    intro htaken obj hobj hreturned
    rw [or_iff_not_imp_right, not_ne_iff]
    exact fun htimeout => (hwakes htaken htimeout obj hobj).resolve_right hreturned
  refine ⟨fun htaken htimeout hne => ?_, hreturned, fun hrange htaken obj hobj hdone => ?_⟩
  · obtain ⟨e, he⟩ := List.exists_mem_of_ne_nil _ (Objects.entries_ne_nil hne)
    have hobj : e.1 ∈ s.dispatcher.objects := AList.mem_keys.2 (List.mem_map_of_mem he)
    exact (hwakes htaken htimeout e.1 hobj).imp_right fun h => ⟨e.1, hobj, h⟩
  · have htimely := timely_of_run hrange hrun
    exact (hreturned htaken obj hobj hdone).imp_right htimely.timeout.resolve_left

/-- The second instance is inserted while the dispatcher handles the event of the first one. -/
theorem noLostWakeUp_sample : ∃ s,
    run step start
      [.enter 0 (.watch 1 true 300000), .advance 0 10, .advance 0 10, .dequeue,
        .enter 1 (.watch 2 false 300000), .enter 2 (.remove 1), .advance 2 11, .process 12,
        .advance 1 12] = some s ∧
    NoLostWakeUp
      [.enter 0 (.watch 1 true 300000), .advance 0 10, .advance 0 10, .dequeue,
        .enter 1 (.watch 2 false 300000), .enter 2 (.remove 1), .advance 2 11, .process 12,
        .advance 1 12] s :=
  ⟨_, rfl, noLostWakeUp_of_run rfl⟩

end Callers

end Exrdkafka.Nif
