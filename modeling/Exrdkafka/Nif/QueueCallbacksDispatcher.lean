import Mathlib.Data.List.AList
import Mathlib.Data.Int.Basic

/-!
# The callbacks dispatcher

`QueueCallbacksDispatcher` owns a thread that polls every client. A client is polled when librdkafka
signals it, and at the latest when half of its `max.poll.interval.ms` has passed since its last
poll. The thread sleeps on the queue of signals, for as long as `check_max_poll_interval_ms` says.

Instances are numbers; a signal without an instance is the null pointer. Times are the unsigned
64-bit milliseconds of `now_ms()`. The order of the table is the order of a hash table, and nothing
below depends on it.

* `Polls` is what both ways of polling do to the table: `last_poll_ms` of the polled instances is
  set, and nothing else changes.
* `sweep_nextSchedule`: the check schedules the least of interval plus elapsed time.
-/

namespace Exrdkafka.Nif

/-- `item` -/
structure Item where
  isConsumer : Bool
  maxPollIntervalMs : UInt64
  lastPollMs : UInt64
  deriving DecidableEq

/-- The watched instances, `objects_`. -/
abbrev Objects := AList fun _ : ℕ => Item

/-- What `do_poll` does: it calls `rd_kafka_consumer_poll` until no message is left, or
`rd_kafka_poll` once. -/
inductive PollCall where
  | consumerPoll (obj : ℕ)
  | poll (obj : ℕ)
  deriving DecidableEq

/-- `do_poll` -/
def doPoll (obj : ℕ) (isConsumer : Bool) : PollCall :=
  if isConsumer then .consumerPoll obj else .poll obj

/-- The instance that is polled. -/
def PollCall.obj : PollCall → ℕ
  | .consumerPoll obj | .poll obj => obj

@[simp] theorem doPoll_obj (obj : ℕ) (isConsumer : Bool) : (doPoll obj isConsumer).obj = obj := by
  cases isConsumer <;> rfl

/-! ## The check -/

namespace Item

/-- The condition of the loop, `now - last_poll_ms >= max_poll_interval_ms`. -/
def due (it : Item) (now : UInt64) : Bool := it.maxPollIntervalMs ≤ now - it.lastPollMs

/-- The item after its turn in the loop. -/
def visit (it : Item) (now : UInt64) : Item :=
  if it.due now then { it with lastPollMs := now } else it

/-- The time the item adds to the schedule, `max_poll_interval_ms+(now - last_poll_ms)`. -/
def schedule (it : Item) (now : UInt64) : UInt64 := it.maxPollIntervalMs + (now - it.lastPollMs)

@[simp] theorem visit_maxPollIntervalMs (it : Item) (now : UInt64) :
    (it.visit now).maxPollIntervalMs = it.maxPollIntervalMs := by
  unfold visit
  split <;> rfl

theorem visit_of_due {it : Item} {now : UInt64} (h : it.due now) :
    (it.visit now).lastPollMs = now := by
  rw [visit, if_pos h]

theorem visit_of_not_due {it : Item} {now : UInt64} (h : ¬ it.due now) : it.visit now = it := by
  rw [visit, if_neg h]

end Item

/-- The variables of the loop of `check_max_poll_interval_ms`, with the polls made. -/
structure Sweep where
  entries : List (Sigma fun _ : ℕ => Item)
  polls : List PollCall
  nextSchedule : UInt64

/-- The loop over the table. -/
def sweep (now : UInt64) : List (Sigma fun _ : ℕ => Item) → UInt64 → Sweep
  | [], nextSchedule => ⟨[], [], nextSchedule⟩
  | ⟨obj, it⟩ :: rest, nextSchedule =>
    let r := sweep now rest (min nextSchedule ((it.visit now).schedule now))
    { entries := ⟨obj, it.visit now⟩ :: r.entries
      polls := if it.due now then doPoll obj it.isConsumer :: r.polls else r.polls
      nextSchedule := r.nextSchedule }

theorem sweep_entries (now next : UInt64) (entries : List (Sigma fun _ : ℕ => Item)) :
    (sweep now entries next).entries = entries.map (Sigma.map id fun _ it => it.visit now) := by
  induction entries generalizing next with
  | nil => rfl
  | cons e rest ih => exact congrArg (List.cons _) (ih _)

theorem sweep_polls (now next : UInt64) (entries : List (Sigma fun _ : ℕ => Item)) :
    (sweep now entries next).polls =
      (entries.filter fun e => e.2.due now).map fun e => doPoll e.1 e.2.isConsumer := by
  induction entries generalizing next with
  | nil => rfl
  | cons e rest ih =>
    obtain ⟨obj, it⟩ := e
    rw [sweep, ih]
    by_cases hdue : it.due now = true <;> simp [hdue]

/-- The schedule is the least of the seed and the times of the items. -/
theorem sweep_nextSchedule (now next : UInt64) (entries : List (Sigma fun _ : ℕ => Item)) :
    (sweep now entries next).nextSchedule =
      (entries.map fun e => (e.2.visit now).schedule now).foldl min next := by
  induction entries generalizing next with
  | nil => rfl
  | cons e rest ih => exact ih _

/-- The result of a check: the table, the polls made and the time to wait in microseconds. -/
structure Checked where
  objects : Objects
  polls : List PollCall
  timeout : ℤ

/-- `kMaxUInt64` -/
def kMaxUInt64 : UInt64 := 0xffffffffffffffff

/-- The seed is not less than any time, so the least of them is a time. -/
theorem foldl_min_kMaxUInt64_mem {times : List UInt64} (h : times ≠ []) :
    times.foldl min kMaxUInt64 ∈ times := by
  have hmin : times.foldl min kMaxUInt64 ∈ kMaxUInt64 :: times := List.min_mem (by simp)
  rcases List.mem_cons.1 hmin with hseed | hmin
  · obtain ⟨t, ht⟩ := List.exists_mem_of_ne_nil times h
    have hle : times.foldl min kMaxUInt64 ≤ t :=
      List.min_le_of_mem (List.mem_cons_of_mem kMaxUInt64 ht)
    have hmax : t ≤ kMaxUInt64 := UInt64.le_iff_toNat_le.2 (Nat.le_of_lt_succ t.toNat_lt)
    rw [hseed] at hle ⊢
    rwa [UInt64.le_antisymm hle hmax]
  · exact hmin

/-- `check_max_poll_interval_ms` -/
def checkMaxPollIntervalMs (objects : Objects) (now : UInt64) : Checked :=
  let r := sweep now objects.entries kMaxUInt64
  { objects := ⟨r.entries, by
      rw [sweep_entries]
      exact objects.nodupKeys.map₂ _ _⟩
    polls := r.polls
    timeout := if objects.entries.isEmpty then -1 else (r.nextSchedule * 1000).toInt64.toInt }

/-- What the polls of an iteration do to the table: an instance that is polled has its
`last_poll_ms` set, and nothing else changes. -/
structure Polls (objects : Objects) (now : UInt64) (objects' : Objects) (calls : List PollCall) :
    Prop where
  lookup : ∀ obj, objects'.lookup obj = (objects.lookup obj).map fun it =>
    if obj ∈ calls.map PollCall.obj then { it with lastPollMs := now } else it
  mem : ∀ c ∈ calls, ∃ it, objects.lookup c.obj = some it

theorem Polls.trans {objects₁ objects₂ objects₃ : Objects} {now : UInt64}
    {calls calls' : List PollCall} (h : Polls objects₁ now objects₂ calls)
    (h' : Polls objects₂ now objects₃ calls') : Polls objects₁ now objects₃ (calls ++ calls') where
  lookup obj := by
    rw [h'.lookup, h.lookup, Option.map_map, List.map_append]
    refine congrArg (Option.map · _) (funext fun it => ?_)
    by_cases h₁ : obj ∈ calls.map PollCall.obj <;> by_cases h₂ : obj ∈ calls'.map PollCall.obj <;>
      simp [h₁, h₂]
  mem c hc := by
    rcases List.mem_append.1 hc with hc | hc
    · exact h.mem c hc
    · obtain ⟨it', hit'⟩ := h'.mem c hc
      rw [h.lookup] at hit'
      obtain ⟨it, hit, -⟩ := Option.map_eq_some_iff.1 hit'
      exact ⟨it, hit⟩

/-- The check polls the instances that are due. -/
theorem mem_polls_checkMaxPollIntervalMs {objects : Objects} {now : UInt64} {obj : ℕ} :
    obj ∈ (checkMaxPollIntervalMs objects now).polls.map PollCall.obj ↔
      ∃ it, objects.lookup obj = some it ∧ it.due now = true := by
  have hpolls : (checkMaxPollIntervalMs objects now).polls.map PollCall.obj =
      (objects.entries.filter fun e => e.2.due now).map Sigma.fst := by
    rw [checkMaxPollIntervalMs, sweep_polls, List.map_map]
    exact congrArg (List.map · _) (funext fun e => doPoll_obj _ _)
  simp only [hpolls, List.mem_map, List.mem_filter, Sigma.exists, ← AList.mem_lookup_iff,
    Option.mem_def]
  constructor
  · rintro ⟨_, it, ⟨hit, hdue⟩, rfl⟩
    exact ⟨it, hit, hdue⟩
  · rintro ⟨it, hit, hdue⟩
    exact ⟨obj, it, ⟨hit, hdue⟩, rfl⟩

theorem lookup_checkMaxPollIntervalMs (objects : Objects) (now : UInt64) (obj : ℕ) :
    (checkMaxPollIntervalMs objects now).objects.lookup obj =
      (objects.lookup obj).map (Item.visit · now) := by
  change List.dlookup obj (sweep now objects.entries kMaxUInt64).entries = _
  rw [sweep_entries]
  exact List.dlookup_map₂ obj

theorem polls_checkMaxPollIntervalMs (objects : Objects) (now : UInt64) :
    Polls objects now (checkMaxPollIntervalMs objects now).objects
      (checkMaxPollIntervalMs objects now).polls where
  lookup obj := by
    rw [lookup_checkMaxPollIntervalMs]
    cases hit : objects.lookup obj with
    | none => rfl
    | some it =>
      have hmem : obj ∈ (checkMaxPollIntervalMs objects now).polls.map PollCall.obj ↔
          it.due now = true := by
        rw [mem_polls_checkMaxPollIntervalMs, hit]
        simp
      simp only [Option.map_some, hmem, Item.visit]
  mem c hc := by
    obtain ⟨it, hit, -⟩ := mem_polls_checkMaxPollIntervalMs.1 (List.mem_map_of_mem hc)
    exact ⟨it, hit⟩

/-! ## The thread -/

/-- `QueueCallbacksDispatcher`, with the variable `poll_timeout` of its thread. -/
structure QueueCallbacksDispatcher where
  objects : Objects
  events : List (Option ℕ)
  pollTimeout : ℤ

namespace QueueCallbacksDispatcher

/-- The dispatcher when its thread starts. -/
def init : QueueCallbacksDispatcher := ⟨∅, [], -1⟩

/-- `watch`, at the time `now`; `maxPollInterval` is the value of `max.poll.interval.ms`. -/
def watch (d : QueueCallbacksDispatcher) (obj : ℕ) (isConsumer : Bool)
    (maxPollInterval now : UInt64) : QueueCallbacksDispatcher :=
  { d with
    objects := d.objects.insert obj ⟨isConsumer, maxPollInterval / 2, now⟩
    events := d.events ++ [none] }

/-- `remove`, and whether it found the instance. -/
def remove (d : QueueCallbacksDispatcher) (obj : ℕ) : QueueCallbacksDispatcher × Bool :=
  match d.objects.lookup obj with
  | none => (d, false)
  | some _ => ({ d with objects := d.objects.erase obj, events := d.events ++ [none] }, true)

theorem remove_of_none {d : QueueCallbacksDispatcher} {obj : ℕ} (h : d.objects.lookup obj = none) :
    d.remove obj = (d, false) := by
  simp only [remove, h]

theorem remove_of_some {d : QueueCallbacksDispatcher} {obj : ℕ} {it : Item}
    (h : d.objects.lookup obj = some it) :
    d.remove obj =
      ({ d with objects := d.objects.erase obj, events := d.events ++ [none] }, true) := by
  simp only [remove, h]

/-- `signal` -/
def signal (d : QueueCallbacksDispatcher) (obj : ℕ) : QueueCallbacksDispatcher :=
  { d with events := d.events ++ [some obj] }

/-- What `process_callbacks` does with a dequeued event before the check. -/
def pollSignalled (objects : Objects) (now : UInt64) : Option ℕ → Objects × List PollCall
  | none => (objects, [])
  | some obj =>
    match objects.lookup obj with
    | none => (objects, [])
    | some it => (objects.insert obj { it with lastPollMs := now }, [doPoll obj it.isConsumer])

theorem pollSignalled_of_none {objects : Objects} {obj : ℕ} (h : objects.lookup obj = none)
    (now : UInt64) : pollSignalled objects now (some obj) = (objects, []) := by
  simp only [pollSignalled, h]

theorem pollSignalled_of_some {objects : Objects} {obj : ℕ} {it : Item}
    (h : objects.lookup obj = some it) (now : UInt64) :
    pollSignalled objects now (some obj) =
      (objects.insert obj { it with lastPollMs := now }, [doPoll obj it.isConsumer]) := by
  simp only [pollSignalled, h]

theorem polls_pollSignalled (objects : Objects) (now : UInt64) (obj : Option ℕ) :
    Polls objects now (pollSignalled objects now obj).1 (pollSignalled objects now obj).2 := by
  have hnone : Polls objects now objects [] := ⟨fun obj => by simp, by simp⟩
  cases obj with
  | none => exact hnone
  | some obj =>
    cases hit : objects.lookup obj with
    | none =>
      rw [pollSignalled_of_none hit]
      exact hnone
    | some it =>
      rw [pollSignalled_of_some hit]
      refine ⟨fun obj' => ?_, fun c hc => ?_⟩
      · by_cases hobj : obj' = obj
        · subst hobj
          simp [hit]
        · simp [AList.lookup_insert_ne hobj, hobj]
      · obtain rfl := List.mem_singleton.1 hc
        exact ⟨it, by rw [doPoll_obj, hit]⟩

/-- An iteration of `process_callbacks` that took the event `obj` off the queue. A wait that timed
out goes through the same check as a null event. -/
def processCallback (d : QueueCallbacksDispatcher) (now : UInt64) (obj : Option ℕ) :
    QueueCallbacksDispatcher × List PollCall :=
  let (objects, polls) := pollSignalled d.objects now obj
  let r := checkMaxPollIntervalMs objects now
  ({ d with objects := r.objects, pollTimeout := r.timeout }, polls ++ r.polls)

theorem polls_processCallback (d : QueueCallbacksDispatcher) (now : UInt64) (obj : Option ℕ) :
    Polls d.objects now (d.processCallback now obj).1.objects (d.processCallback now obj).2 :=
  (polls_pollSignalled d.objects now obj).trans (polls_checkMaxPollIntervalMs _ now)

end QueueCallbacksDispatcher

end Exrdkafka.Nif
