import Exrdkafka.Foundations.Machine
import Exrdkafka.Foundations.Timer
import Exrdkafka.Foundations.Trace
import Exrdkafka.Nif.Sweep

/-!
# Poll deadlines

The thread of the dispatcher in time: other threads watch, remove and signal instances, the clock
does not go back, and the thread runs whenever there is an event or its wait has ended. Handlers
take no time.

* `Punctual` is what the dispatcher is for: no wait goes past the deadline of a watched instance,
  and no instance is polled later than its `max.poll.interval.ms` allows.
* `checked_inTime_iff`: a check sets a wait that is short enough exactly when `PollsTightest`.
* `always_punctual_iff`: the dispatcher is punctual exactly in the runs whose checks all poll an
  instance that is tightest.
-/

namespace Exrdkafka.Nif

open Machine Trace QueueCallbacksDispatcher

/-! ## The machine -/

/-- What the dispatcher has done. -/
inductive Note where
  /-- `watch`, of an instance with this `max.poll.interval.ms` -/
  | watched (obj : ℕ) (maxPollInterval now : UInt64)
  /-- a `remove` that found the instance -/
  | removed (obj : ℕ)
  | polled (call : PollCall) (now : UInt64)
  /-- a return of `check_max_poll_interval_ms`, with the table it leaves -/
  | checked (now : UInt64) (timeout : ℤ) (objects : Objects)

/-- The dispatcher at a time. -/
structure Timed where
  d : QueueCallbacksDispatcher
  clock : UInt64
  /-- the time of the last check -/
  checked : UInt64
  history : List Note

/-- What can happen. -/
inductive TimedEvent where
  | watch (obj : ℕ) (isConsumer : Bool) (maxPollInterval : UInt64)
  | remove (obj : ℕ)
  | signal (obj : ℕ)
  /-- the thread takes an event off the queue -/
  | dequeue
  /-- the wait of the thread times out -/
  | timeOut
  /-- time passes -/
  | tick (now : UInt64)

namespace Timed

/-- The time at which the wait ends, in milliseconds. -/
def wakeTime (s : Timed) : ℤ := s.checked.toNat + s.d.pollTimeout / 1000

/-- An iteration of the thread. -/
def wake (s : Timed) (obj : Option ℕ) : Timed :=
  let (d, polls) := s.d.processCallback s.clock obj
  { d := d
    clock := s.clock
    checked := s.clock
    history := s.history ++ polls.map (.polled · s.clock) ++
      [.checked s.clock d.pollTimeout d.objects] }

/-- One step. `max.poll.interval.ms` is at most a day. A negative timeout is an infinite wait, and
time passes only while the thread waits. -/
def step (s : Timed) : TimedEvent → Option Timed
  | .watch obj isConsumer maxPollInterval =>
    if maxPollInterval ≤ 86400000 then
      some { s with
        d := s.d.watch obj isConsumer maxPollInterval s.clock
        history := s.history ++ [.watched obj maxPollInterval s.clock] }
    else none
  | .remove obj =>
    let (d, found) := s.d.remove obj
    some { s with d := d, history := s.history ++ if found then [.removed obj] else [] }
  | .signal obj => some { s with d := s.d.signal obj }
  | .dequeue =>
    match s.d.events with
    | [] => none
    | obj :: events => some (wake { s with d := { s.d with events := events } } obj)
  | .timeOut =>
    if 0 ≤ s.d.pollTimeout ∧ s.clock.toNat = s.wakeTime then some (s.wake none) else none
  | .tick now =>
    if s.clock ≤ now ∧ s.d.events = [] ∧ (s.d.pollTimeout < 0 ∨ now.toNat ≤ s.wakeTime) then
      some { s with clock := now }
    else none

/-- What a step can do. -/
inductive Steps (s : Timed) : TimedEvent → Timed → Prop
  | watch {obj : ℕ} {isConsumer : Bool} {maxPollInterval : UInt64}
      (hmax : maxPollInterval ≤ 86400000) : Steps s (.watch obj isConsumer maxPollInterval)
      { s with
        d := s.d.watch obj isConsumer maxPollInterval s.clock
        history := s.history ++ [.watched obj maxPollInterval s.clock] }
  | removeUnknown {obj : ℕ} : Steps s (.remove obj) s
  | remove {obj : ℕ} : Steps s (.remove obj)
      { s with
        d := { s.d with objects := s.d.objects.erase obj, events := s.d.events ++ [none] }
        history := s.history ++ [.removed obj] }
  | signal {obj : ℕ} : Steps s (.signal obj) { s with d := s.d.signal obj }
  | dequeue {obj : Option ℕ} {events : List (Option ℕ)} (hevents : s.d.events = obj :: events) :
      Steps s .dequeue (wake { s with d := { s.d with events := events } } obj)
  | timeOut : Steps s .timeOut (s.wake none)
  | tick {now : UInt64} (hle : s.clock ≤ now) (hevents : s.d.events = [])
      (hwait : s.d.pollTimeout < 0 ∨ now.toNat ≤ s.wakeTime) :
      Steps s (.tick now) { s with clock := now }

theorem steps_of_step {s t : Timed} {e : TimedEvent} (h : s.step e = some t) : Steps s e t := by
  cases e with
  | watch obj isConsumer maxPollInterval =>
    simp only [step] at h
    split_ifs at h with hmax
    exact Option.some.inj h ▸ .watch hmax
  | remove obj =>
    obtain rfl := Option.some.inj h
    cases hit : s.d.objects.lookup obj with
    | none => simpa [remove_of_none hit] using Steps.removeUnknown
    | some it => simpa [remove_of_some hit] using Steps.remove
  | signal obj => exact Option.some.inj h ▸ .signal
  | dequeue =>
    simp only [step] at h
    split at h
    · cases h
    · next hevents => exact Option.some.inj h ▸ .dequeue hevents
  | timeOut =>
    simp only [step] at h
    split_ifs at h
    exact Option.some.inj h ▸ .timeOut
  | tick now =>
    simp only [step] at h
    split_ifs at h with hnow
    exact Option.some.inj h ▸ .tick hnow.1 hnow.2.1 hnow.2.2

/-- The dispatcher when its thread starts. -/
def start (clock : UInt64) : Timed := ⟨.init, clock, clock, []⟩

end Timed

/-! ## Punctuality -/

/-- What a note says about an instance: its `max.poll.interval.ms` and the time of its last poll,
where an instance that is being watched counts as polled. -/
def Note.track (obj : ℕ) (last : Option (UInt64 × UInt64)) : Note → Option (UInt64 × UInt64)
  | .watched obj' maxPollInterval now => if obj' = obj then some (maxPollInterval, now) else last
  | .removed obj' => if obj' = obj then none else last
  | .polled call now => if call.obj = obj then last.map fun p => (p.1, now) else last
  | .checked _ _ _ => last

/-- The `max.poll.interval.ms` and the time of the last poll of a watched instance. -/
def lastPoll (history : List Note) (obj : ℕ) : Option (UInt64 × UInt64) :=
  history.foldl (Note.track obj) none

/-- The wait ends before the deadline of every instance of the table. -/
def MeetsDeadlines (now : UInt64) (timeout : ℤ) (objects : Objects) : Prop :=
  ∀ obj it, objects.lookup obj = some it →
    now.toNat + timeout / 1000 ≤ it.lastPollMs.toNat + it.maxPollIntervalMs.toNat

/-- Polling `obj` at the time `now` is not too late. -/
def PolledInTime (history : List Note) (obj : ℕ) (now : UInt64) : Prop :=
  ∀ maxPollInterval last, lastPoll history obj = some (maxPollInterval, last) →
    now.toNat ≤ last.toNat + maxPollInterval.toNat

/-- The note, after those before it, is of a wait or a poll that is in time. -/
def Note.InTime (pre : List Note) : Note → Prop
  | .polled call now => PolledInTime pre call.obj now
  | .checked now timeout objects => 0 ≤ timeout → MeetsDeadlines now timeout objects
  | _ => True

/-- **The purpose of the dispatcher**: it never sleeps past a deadline, and the time between two
polls of an instance does not exceed its `max.poll.interval.ms`. -/
def Punctual (s : Timed) : Prop := AtEach Note.InTime s.history

/-! ## When a check is punctual -/

/-- The item is polled by the check, or just has been. -/
def Item.Served (it : Item) (now : UInt64) : Prop := it.due now ∨ it.lastPollMs = now

/-- The time until the item is due again, after the check. -/
def Item.remaining (it : Item) (now : UInt64) : ℕ :=
  if it.due now then it.maxPollIntervalMs.toNat
  else it.maxPollIntervalMs.toNat - (now.toNat - it.lastPollMs.toNat)

/-- The table is empty, or an instance is polled whose interval is not longer than the time any
instance has left. -/
def PollsTightest (objects : Objects) (now : UInt64) : Prop :=
  objects = ∅ ∨ ∃ obj it, objects.lookup obj = some it ∧ it.Served now ∧
    ∀ obj' it', objects.lookup obj' = some it' → it.maxPollIntervalMs.toNat ≤ it'.remaining now

/-- The time since the last poll of the item, after the check. -/
def Item.elapsed (it : Item) (now : UInt64) : ℕ := now.toNat - (it.visit now).lastPollMs.toNat

namespace Item

variable {it : Item} {now : UInt64}

theorem elapsed_of_due (hdue : it.due now = true) : it.elapsed now = 0 := by
  rw [Item.elapsed, visit_of_due hdue, Nat.sub_self]

theorem elapsed_of_not_due (hdue : ¬ it.due now = true) :
    it.elapsed now = now.toNat - it.lastPollMs.toNat := by
  rw [Item.elapsed, visit_of_not_due hdue]

theorem remaining_eq : it.remaining now = it.maxPollIntervalMs.toNat - it.elapsed now := by
  by_cases hdue : it.due now = true
  · rw [Item.remaining, if_pos hdue, elapsed_of_due hdue, Nat.sub_zero]
  · rw [Item.remaining, if_neg hdue, elapsed_of_not_due hdue]

end Item

/-- An item as the table keeps it: its last poll is not in the future and its interval is at most
half a day. -/
structure Item.Sound (it : Item) (now : UInt64) : Prop where
  last_le : it.lastPollMs.toNat ≤ now.toNat
  interval_le : it.maxPollIntervalMs.toNat ≤ 43200000

namespace Item.Sound

variable {it : Item} {now : UInt64}

theorem elapsedMs_eq (h : it.Sound now) :
    elapsedMs it.lastPollMs now = now.toNat - it.lastPollMs.toNat :=
  elapsedMs_of_le h.last_le

theorem visit (h : it.Sound now) : (it.visit now).Sound now := by
  refine ⟨?_, by simpa using h.interval_le⟩
  by_cases hdue : it.due now = true
  · rw [visit_of_due hdue]
  · rw [visit_of_not_due hdue]
    exact h.last_le

theorem elapsed_eq (h : it.Sound now) :
    elapsedMs (it.visit now).lastPollMs now = it.elapsed now :=
  h.visit.elapsedMs_eq

theorem elapsed_le (h : it.Sound now) : it.elapsed now ≤ it.maxPollIntervalMs.toNat :=
  h.elapsed_eq ▸ elapsedMs_visit_le

theorem served_iff (h : it.Sound now) : it.Served now ↔ it.elapsed now = 0 := by
  by_cases hdue : it.due now = true
  · exact iff_of_true (Or.inl hdue) (elapsed_of_due hdue)
  · rw [elapsed_of_not_due hdue, Item.Served, or_iff_right hdue, ← UInt64.toNat_inj]
    have hle := h.last_le
    omega

theorem wait_eq (h : it.Sound now) : it.wait now = it.maxPollIntervalMs.toNat + it.elapsed now := by
  rw [Item.wait, h.elapsed_eq]

end Item.Sound

/-- Every item of the table is sound. -/
def Objects.Sound (objects : Objects) (now : UInt64) : Prop :=
  ∀ obj it, objects.lookup obj = some it → it.Sound now

theorem Objects.Sound.bounded {objects : Objects} {now : UInt64} (h : objects.Sound now) :
    objects.Bounded :=
  fun _ ⟨obj, hit⟩ => (h obj _ hit).interval_le

/-- The schedule of a table that is not empty: the least of the times of its items. -/
theorem Objects.Sound.schedule {objects : Objects} {now : UInt64} (h : objects.Sound now)
    (hne : objects ≠ ∅) :
    IsLeast (Set.image (fun it => it.maxPollIntervalMs.toNat + it.elapsed now) objects.items)
      (sweep now objects.entries kMaxUInt64).nextSchedule.toNat := by
  have hwait : Set.image (·.wait now) objects.items =
      Set.image (fun it => it.maxPollIntervalMs.toNat + it.elapsed now) objects.items :=
    Set.image_congr fun it ⟨obj, hit⟩ => (h obj it hit).wait_eq
  exact hwait ▸ h.bounded.schedule now hne

/-- A wait of a check meets the deadlines when the timer it sets is in time. -/
theorem Objects.Sound.meetsDeadlines_iff {objects : Objects} {now : UInt64} (h : objects.Sound now)
    (wait : ℕ) :
    MeetsDeadlines now (wait * 1000) (checkMaxPollIntervalMs objects now).objects ↔
      Timer.InTime objects.items (·.maxPollIntervalMs.toNat) (·.elapsed now) wait := by
  have hms : (wait * 1000 : ℤ) / 1000 = wait := Int.mul_ediv_cancel _ (by decide)
  have hdeadline : ∀ obj it, objects.lookup obj = some it →
      ((now.toNat + wait : ℤ) ≤ (it.visit now).lastPollMs.toNat + it.maxPollIntervalMs.toNat ↔
        it.elapsed now + wait ≤ it.maxPollIntervalMs.toNat) := fun obj it hit => by
    have hlast := (h obj it hit).visit.last_le
    rw [Item.elapsed]
    omega
  simp only [MeetsDeadlines, hms, lookup_checkMaxPollIntervalMs]
  constructor
  · rintro hmeets it ⟨obj, hit⟩
    have hit' := hmeets obj (it.visit now) (by rw [hit]; rfl)
    rw [Item.visit_maxPollIntervalMs] at hit'
    exact (hdeadline obj it hit).1 hit'
  · intro hin obj it' hit'
    obtain ⟨it, hit, rfl⟩ := Option.map_eq_some_iff.1 hit'
    rw [Item.visit_maxPollIntervalMs]
    exact (hdeadline obj it hit).2 (hin it ⟨obj, hit⟩)

/-- An item that is tightest for the timer is polled by the check, with an interval that is not
longer than the time any other item has left. -/
theorem Objects.Sound.pollsTightest_iff {objects : Objects} {now : UInt64} (h : objects.Sound now)
    (hne : objects ≠ ∅) :
    PollsTightest objects now ↔ ∃ it ∈ objects.items,
      Timer.Tightest objects.items (·.maxPollIntervalMs.toNat) (·.elapsed now) it := by
  rw [PollsTightest, or_iff_right hne]
  constructor
  · rintro ⟨obj, it, hit, hserved, htight⟩
    refine ⟨it, ⟨obj, hit⟩, (h obj it hit).served_iff.1 hserved, fun it' ⟨obj', hit'⟩ => ?_⟩
    rw [← Item.remaining_eq]
    exact htight obj' it' hit'
  · rintro ⟨it, ⟨obj, hit⟩, hzero, htight⟩
    refine ⟨obj, it, hit, (h obj it hit).served_iff.2 hzero, fun obj' it' hit' => ?_⟩
    rw [Item.remaining_eq]
    exact htight it' ⟨obj', hit'⟩

/-- **When a check is punctual.** -/
theorem checked_inTime_iff {objects : Objects} {now : UInt64} (h : objects.Sound now)
    (pre : List Note) :
    Note.InTime pre (.checked now (checkMaxPollIntervalMs objects now).timeout
      (checkMaxPollIntervalMs objects now).objects) ↔ PollsTightest objects now := by
  by_cases hne : objects = ∅
  · subst hne
    have hneg : ¬ (0 : ℤ) ≤ -1 := by omega
    exact iff_of_true (fun hpos => absurd hpos hneg) (Or.inl rfl)
  have hleast := h.schedule hne
  have hpos : (0 : ℤ) ≤ (sweep now objects.entries kMaxUInt64).nextSchedule.toNat * 1000 := by omega
  rw [Note.InTime, h.bounded.timeout hne, forall_prop_of_true hpos, h.meetsDeadlines_iff,
    h.pollsTightest_iff hne]
  exact Timer.inTime_iff hleast fun it ⟨obj, hit⟩ => (h obj it hit).elapsed_le

/-! ## The table and the history -/

theorem lastPoll_concat (history : List Note) (n : Note) (obj : ℕ) :
    lastPoll (history ++ [n]) obj = n.track obj (lastPoll history obj) :=
  List.foldl_concat ..

theorem lastPoll_polls (history : List Note) (calls : List PollCall) (now : UInt64) (obj : ℕ) :
    lastPoll (history ++ calls.map (.polled · now)) obj =
      if obj ∈ calls.map PollCall.obj then (lastPoll history obj).map fun p => (p.1, now)
      else lastPoll history obj := by
  induction calls generalizing history with
  | nil => simp
  | cons c calls ih =>
    have hsplit : history ++ (c :: calls).map (.polled · now) =
        (history ++ [.polled c now]) ++ calls.map (.polled · now) := by simp
    rw [hsplit, ih, lastPoll_concat, Note.track, List.map_cons]
    by_cases hc : c.obj = obj
    · cases lastPoll history obj <;> simp [hc]
    · simp [hc, Ne.symm hc]

theorem PolledInTime.polls {history : List Note} {obj : ℕ} {now : UInt64}
    (h : PolledInTime history obj now) (calls : List PollCall) :
    PolledInTime (history ++ calls.map (.polled · now)) obj now := by
  intro maxPollInterval last hlast
  rw [lastPoll_polls] at hlast
  split_ifs at hlast with hmem
  · obtain ⟨p, -, hp⟩ := Option.map_eq_some_iff.1 hlast
    obtain rfl : now = last := congrArg Prod.snd hp
    exact Nat.le_add_right _ _
  · exact h maxPollInterval last hlast

/-- Polling instances that are all in time. -/
theorem atEach_polls {history : List Note} {now : UInt64} {calls : List PollCall}
    (h : AtEach Note.InTime history) (hcalls : ∀ c ∈ calls, PolledInTime history c.obj now) :
    AtEach Note.InTime (history ++ calls.map (.polled · now)) := by
  refine AtEach.append h fun pre n post hsplit => ?_
  obtain ⟨before, rest, rfl, rfl, hrest⟩ := List.map_eq_append_iff.1 hsplit
  obtain ⟨c, after, rfl, rfl, -⟩ := List.map_eq_cons_iff.1 hrest
  exact (hcalls c (by simp)).polls before

/-- The table agrees with the history. -/
def Tracked (objects : Objects) (history : List Note) : Prop :=
  ∀ obj it, objects.lookup obj = some it →
    ∃ maxPollInterval, lastPoll history obj = some (maxPollInterval, it.lastPollMs) ∧
      it.maxPollIntervalMs = maxPollInterval / 2

theorem Polls.sound {objects objects' : Objects} {now : UInt64} {calls : List PollCall}
    (h : Polls objects now objects' calls) (hs : objects.Sound now) : objects'.Sound now := by
  intro obj it' hit'
  rw [h.lookup] at hit'
  obtain ⟨it, hit, rfl⟩ := Option.map_eq_some_iff.1 hit'
  have hsound := hs obj it hit
  split
  · exact ⟨le_refl _, hsound.interval_le⟩
  · exact hsound

theorem Polls.tracked {objects objects' : Objects} {now : UInt64} {calls : List PollCall}
    {history : List Note} (h : Polls objects now objects' calls) (ht : Tracked objects history) :
    Tracked objects' (history ++ calls.map (.polled · now)) := by
  intro obj it' hit'
  rw [h.lookup] at hit'
  obtain ⟨it, hit, rfl⟩ := Option.map_eq_some_iff.1 hit'
  obtain ⟨maxPollInterval, hlast, hinterval⟩ := ht obj it hit
  rw [lastPoll_polls, hlast]
  refine ⟨maxPollInterval, ?_, ?_⟩
  · split_ifs <;> rfl
  · split_ifs <;> exact hinterval

/-- Every instance of the table is polled in time at the time `now`. -/
def Objects.Timely (objects : Objects) (now : UInt64) : Prop :=
  ∀ obj it, objects.lookup obj = some it →
    now.toNat ≤ it.lastPollMs.toNat + it.maxPollIntervalMs.toNat

theorem Tracked.polledInTime {objects : Objects} {history : List Note} {now : UInt64} {obj : ℕ}
    {it : Item} (h : Tracked objects history) (ht : objects.Timely now)
    (hit : objects.lookup obj = some it) : PolledInTime history obj now := by
  intro maxPollInterval last hlast
  obtain ⟨maxPollInterval', hlast', hinterval⟩ := h obj it hit
  obtain ⟨rfl, rfl⟩ : maxPollInterval' = maxPollInterval ∧ it.lastPollMs = last := by
    simpa using hlast'.symm.trans hlast
  have htimely := ht obj it hit
  rw [hinterval, UInt64.toNat_div, show (2 : UInt64).toNat = 2 from rfl] at htimely
  omega

/-- After a check, every instance has been polled in time. -/
theorem Objects.Sound.timely {objects : Objects} {now : UInt64} (h : objects.Sound now) :
    (checkMaxPollIntervalMs objects now).objects.Timely now := by
  intro obj it' hit'
  rw [lookup_checkMaxPollIntervalMs] at hit'
  obtain ⟨it, hit, rfl⟩ := Option.map_eq_some_iff.1 hit'
  have helapsed := (h obj it hit).elapsed_le
  rw [Item.elapsed] at helapsed
  rw [Item.visit_maxPollIntervalMs]
  omega

/-! ## Runs -/

/-- What every run keeps. -/
structure Kept (s : Timed) : Prop where
  sound : s.d.objects.Sound s.clock
  tracked : Tracked s.d.objects s.history
  /-- While the thread waits, the table is the one of the last check. -/
  waiting : s.d.events = [] → s.d.objects = ∅ ∨
    0 ≤ s.d.pollTimeout ∧ .checked s.checked s.d.pollTimeout s.d.objects ∈ s.history
  timely : Punctual s → s.d.objects.Timely s.clock

theorem kept_start (clock : UInt64) : Kept (Timed.start clock) := by
  have hnone : ∀ obj (it : Item), (∅ : Objects).lookup obj ≠ some it := fun obj it hit => by
    simp at hit
  exact ⟨fun obj it hit => absurd hit (hnone obj it), fun obj it hit => absurd hit (hnone obj it),
    fun _ => Or.inl rfl, fun _ obj it hit => absurd hit (hnone obj it)⟩

/-- An iteration of the thread, whatever is left on the queue. -/
theorem kept_wake {s : Timed} (hs : s.d.objects.Sound s.clock) (ht : Tracked s.d.objects s.history)
    (obj : Option ℕ) : Kept (s.wake obj) := by
  have hpolls := polls_processCallback s.d s.clock obj
  have htouched := (polls_pollSignalled s.d.objects s.clock obj).sound hs
  refine ⟨hpolls.sound hs, fun obj' it hit => ?_, fun _ => ?_, fun _ => htouched.timely⟩
  · obtain ⟨maxPollInterval, hlast, hinterval⟩ := hpolls.tracked ht obj' it hit
    exact ⟨maxPollInterval, (lastPoll_concat _ _ _).trans hlast, hinterval⟩
  · by_cases hne : (pollSignalled s.d.objects s.clock obj).1 = ∅
    · refine Or.inl ?_
      change (checkMaxPollIntervalMs (pollSignalled s.d.objects s.clock obj).1 s.clock).objects = ∅
      rw [hne]
      rfl
    · refine Or.inr ⟨?_, List.mem_append_right _ (List.mem_singleton_self _)⟩
      change 0 ≤ (checkMaxPollIntervalMs (pollSignalled s.d.objects s.clock obj).1 s.clock).timeout
      rw [htouched.bounded.timeout hne]
      omega

/-- An iteration of the thread is punctual exactly when its check is. -/
theorem punctual_wake_iff {s : Timed} (hs : s.d.objects.Sound s.clock)
    (ht : Tracked s.d.objects s.history) (htimely : s.d.objects.Timely s.clock) (hp : Punctual s)
    (obj : Option ℕ) :
    Punctual (s.wake obj) ↔ PollsTightest (pollSignalled s.d.objects s.clock obj).1 s.clock := by
  have hpolls := polls_processCallback s.d s.clock obj
  have hbefore : AtEach Note.InTime
      (s.history ++ (s.d.processCallback s.clock obj).2.map (.polled · s.clock)) :=
    atEach_polls hp fun c hc => by
      obtain ⟨it, hit⟩ := hpolls.mem c hc
      exact ht.polledInTime htimely hit
  calc Punctual (s.wake obj)
      ↔ _ ∧ Note.InTime _ (.checked s.clock (s.wake obj).d.pollTimeout (s.wake obj).d.objects) :=
        atEach_concat
    _ ↔ Note.InTime _ (.checked s.clock (s.wake obj).d.pollTimeout (s.wake obj).d.objects) :=
        and_iff_right hbefore
    _ ↔ _ := checked_inTime_iff ((polls_pollSignalled s.d.objects s.clock obj).sound hs) _

theorem Kept.watch {s : Timed} (h : Kept s) (obj : ℕ) (isConsumer : Bool) {maxPollInterval : UInt64}
    (hmax : maxPollInterval ≤ 86400000) :
    Kept { s with
      d := s.d.watch obj isConsumer maxPollInterval s.clock
      history := s.history ++ [.watched obj maxPollInterval s.clock] } := by
  have hhalf : (maxPollInterval / 2).toNat = maxPollInterval.toNat / 2 := UInt64.toNat_div _ _
  have hle : maxPollInterval.toNat ≤ 86400000 := UInt64.le_iff_toNat_le.1 hmax
  have hlookup : ∀ {obj' it}, obj' ≠ obj →
      (s.d.watch obj isConsumer maxPollInterval s.clock).objects.lookup obj' = some it →
        s.d.objects.lookup obj' = some it := fun hne hit =>
    (AList.lookup_insert_ne hne).symm.trans hit
  have hself : ∀ {it},
      (s.d.watch obj isConsumer maxPollInterval s.clock).objects.lookup obj = some it →
        it = ⟨isConsumer, maxPollInterval / 2, s.clock⟩ := fun hit =>
    Option.some.inj (hit.symm.trans (AList.lookup_insert _))
  refine ⟨fun obj' it hit => ?_, fun obj' it hit => ?_, fun hevents => ?_, fun hp obj' it hit => ?_⟩
  · by_cases hobj : obj' = obj
    · obtain rfl := hself (hobj ▸ hit)
      exact ⟨le_refl _, by simp only [hhalf]; omega⟩
    · exact h.sound obj' it (hlookup hobj hit)
  · rw [lastPoll_concat, Note.track]
    by_cases hobj : obj' = obj
    · obtain rfl := hself (hobj ▸ hit)
      rw [if_pos hobj.symm]
      exact ⟨maxPollInterval, rfl, rfl⟩
    · rw [if_neg (Ne.symm hobj)]
      exact h.tracked obj' it (hlookup hobj hit)
  · exact absurd hevents (by simp [QueueCallbacksDispatcher.watch])
  · by_cases hobj : obj' = obj
    · obtain rfl := hself (hobj ▸ hit)
      exact Nat.le_add_right _ _
    · exact h.timely (atEach_concat.1 hp).1 obj' it (hlookup hobj hit)

theorem Kept.remove {s : Timed} (h : Kept s) (obj : ℕ) :
    Kept { s with
      d := { s.d with objects := s.d.objects.erase obj, events := s.d.events ++ [none] }
      history := s.history ++ [.removed obj] } := by
  have hlookup : ∀ {obj' it}, (s.d.objects.erase obj).lookup obj' = some it →
      obj' ≠ obj ∧ s.d.objects.lookup obj' = some it := fun {obj' it} hit => by
    have hne : obj' ≠ obj := by
      rintro rfl
      rw [AList.lookup_erase] at hit
      cases hit
    exact ⟨hne, (AList.lookup_erase_ne hne).symm.trans hit⟩
  refine ⟨fun obj' it hit => ?_, fun obj' it hit => ?_, fun hevents => ?_, fun hp obj' it hit => ?_⟩
  · exact h.sound obj' it (hlookup hit).2
  · rw [lastPoll_concat, Note.track, if_neg (hlookup hit).1.symm]
    exact h.tracked obj' it (hlookup hit).2
  · exact absurd hevents (by simp)
  · exact h.timely (atEach_concat.1 hp).1 obj' it (hlookup hit).2

/-- Time passes until the wait ends. -/
theorem Kept.tick {s : Timed} (h : Kept s) {now : UInt64} (hle : s.clock ≤ now)
    (hevents : s.d.events = []) (hwait : s.d.pollTimeout < 0 ∨ now.toNat ≤ s.wakeTime) :
    Kept { s with clock := now } := by
  have hclock : s.clock.toNat ≤ now.toNat := UInt64.le_iff_toNat_le.1 hle
  refine ⟨fun obj it hit => ?_, h.tracked, h.waiting, fun hp obj it hit => ?_⟩
  · have hsound := h.sound obj it hit
    exact ⟨hsound.last_le.trans hclock, hsound.interval_le⟩
  · rcases h.waiting hevents with hempty | ⟨htimeout, hchecked⟩
    · have hit' : s.d.objects.lookup obj = some it := hit
      rw [hempty] at hit'
      simp at hit'
    · obtain ⟨pre, post, hsplit⟩ := List.append_of_mem hchecked
      have hmeets := hp pre _ post hsplit htimeout obj it hit
      have hwake : now.toNat ≤ s.wakeTime := hwait.resolve_left (by omega)
      rw [Timed.wakeTime] at hwake
      change now.toNat ≤ _
      omega

/-- **One step keeps what every run keeps.** -/
theorem Kept.step {s t : Timed} {e : TimedEvent} (h : Kept s) (hstep : s.step e = some t) :
    Kept t := by
  cases Timed.steps_of_step hstep with
  | watch hmax => exact h.watch _ _ hmax
  | removeUnknown => exact h
  | remove => exact h.remove _
  | signal => exact ⟨h.sound, h.tracked, fun hevents => absurd hevents (by simp [signal]), h.timely⟩
  | @dequeue obj events hevents =>
    exact kept_wake (s := { s with d := { s.d with events := events } }) h.sound h.tracked obj
  | timeOut => exact kept_wake h.sound h.tracked none
  | tick hle hevents hwait => exact h.tick hle hevents hwait

/-- The check that the step makes polls a tightest instance. -/
def PollsTightestAt (s : Timed) : TimedEvent → Prop
  | .dequeue =>
    ∀ obj ∈ s.d.events.head?, PollsTightest (pollSignalled s.d.objects s.clock obj).1 s.clock
  | .timeOut => PollsTightest s.d.objects s.clock
  | _ => True

theorem punctual_step {s t : Timed} {e : TimedEvent} (h : Kept s) (hp : Punctual s)
    (hstep : s.step e = some t) : Punctual t ↔ PollsTightestAt s e := by
  have htimely := h.timely hp
  cases Timed.steps_of_step hstep with
  | watch hmax => exact iff_of_true (atEach_concat.2 ⟨hp, trivial⟩) trivial
  | removeUnknown => exact iff_of_true hp trivial
  | remove => exact iff_of_true (atEach_concat.2 ⟨hp, trivial⟩) trivial
  | signal => exact iff_of_true hp trivial
  | @dequeue obj events hevents =>
    have hwake := punctual_wake_iff (s := { s with d := { s.d with events := events } }) h.sound
      h.tracked htimely hp obj
    rw [hwake, PollsTightestAt, hevents]
    simp
  | timeOut => exact punctual_wake_iff h.sound h.tracked htimely hp none
  | tick => exact iff_of_true hp trivial

/-- **When the dispatcher is punctual.** In every run, no wait goes past a deadline and no instance
is polled late exactly when every check polls an instance whose interval no instance has less than
left. -/
theorem always_punctual_iff {clock : UInt64} {es : List TimedEvent} {s : Timed}
    (hrun : run Timed.step (Timed.start clock) es = some s) :
    Always Timed.step Punctual (Timed.start clock) es ↔
      Along Timed.step PollsTightestAt (Timed.start clock) es :=
  always_iff_along (fun _ _ _ h hs => h.step hs) (fun _ _ _ => punctual_step) (kept_start clock)
    atEach_nil hrun

/-- An instance with a maximum of 200 ms is polled at the time 0; 99 ms later a second one is
watched. -/
def secondWatched : List TimedEvent :=
  [.watch 1 true 200, .dequeue, .signal 1, .dequeue, .tick 99, .watch 2 false 2000, .dequeue,
    .tick 298, .timeOut]

/-- The check for the second instance lets the thread sleep for 199 ms, so that the first one is
polled 298 ms after its last poll. -/
theorem secondWatched_late : ¬ Always Timed.step Punctual (Timed.start 0) secondWatched := by
  intro h
  have hp := h.last rfl
  have hlate := hp [_, _, _, _, _, _] (.polled (.consumerPoll 1) 298) [_] rfl 200 0 rfl
  exact absurd hlate (by decide)

/-- Two consumers, both polled when the wait times out, and one of them on a signal. -/
def twoWatched : List TimedEvent :=
  [.watch 1 true 300000, .dequeue, .watch 2 true 300000, .dequeue, .tick 150000, .timeOut,
    .signal 2, .dequeue, .remove 1, .dequeue]

theorem always_punctual_iff_sample :
    Always Timed.step Punctual (Timed.start 0) twoWatched ↔
      Along Timed.step PollsTightestAt (Timed.start 0) twoWatched :=
  always_punctual_iff rfl

end Exrdkafka.Nif
