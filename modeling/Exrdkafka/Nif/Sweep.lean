import Mathlib.Algebra.GroupWithZero.Nat
import Mathlib.Order.Bounds.Basic
import Exrdkafka.Nif.QueueCallbacksDispatcher

/-!
# The sweep over the watched instances

`check_max_poll_interval_ms` computes with unsigned 64-bit numbers, and its clock may be set back,
so that the time since a last poll wraps around. As long as no interval is longer than half a day,
nothing else does: an instance is either polled, which sets its elapsed time to zero, or its elapsed
time is shorter than its interval.

* `Item.schedule_toNat`: the addition does not wrap.
* `Objects.Bounded.schedule`: the schedule is the least of the waits of the items.
* `exactSweep_checkMaxPollIntervalMs`: which instances a check polls, what it leaves of the table
  and what it returns.
-/

namespace Exrdkafka.Nif

/-- The time from `last` to `now` on a clock of 64 bits. -/
def elapsedMs (last now : UInt64) : ℕ := (now.toNat + 2 ^ 64 - last.toNat) % 2 ^ 64

theorem toNat_sub_eq_elapsedMs (last now : UInt64) : (now - last).toNat = elapsedMs last now := by
  have hlast := last.toNat_lt
  rw [UInt64.toNat_sub, elapsedMs]
  congr 1
  omega

theorem elapsedMs_self (now : UInt64) : elapsedMs now now = 0 := by
  rw [← toNat_sub_eq_elapsedMs, UInt64.sub_self, UInt64.toNat_zero]

/-- Where the clock has not been set back, the time is a difference. -/
theorem elapsedMs_of_le {last now : UInt64} (h : last.toNat ≤ now.toNat) :
    elapsedMs last now = now.toNat - last.toNat := by
  rw [← toNat_sub_eq_elapsedMs, UInt64.toNat_sub_of_le _ _ (UInt64.le_iff_toNat_le.2 h)]

/-! ## An item -/

namespace Item

variable {it : Item} {now : UInt64}

theorem due_iff_elapsedMs :
    it.due now = true ↔ it.maxPollIntervalMs.toNat ≤ elapsedMs it.lastPollMs now := by
  rw [Item.due, decide_eq_true_iff, UInt64.le_iff_toNat_le, toNat_sub_eq_elapsedMs]

/-- After the visit the item is not overdue. -/
theorem elapsedMs_visit_le :
    elapsedMs (it.visit now).lastPollMs now ≤ it.maxPollIntervalMs.toNat := by
  by_cases hdue : it.due now = true
  · rw [visit_of_due hdue, elapsedMs_self]
    exact Nat.zero_le _
  · rw [visit_of_not_due hdue]
    exact le_of_not_ge (mt due_iff_elapsedMs.2 hdue)

/-- What the item adds to the schedule: its interval and its elapsed time. -/
def wait (it : Item) (now : UInt64) : ℕ :=
  it.maxPollIntervalMs.toNat + elapsedMs (it.visit now).lastPollMs now

theorem wait_le (now : UInt64) (h : it.maxPollIntervalMs.toNat ≤ 43200000) :
    it.wait now ≤ 86400000 := by
  have hvisit : elapsedMs (it.visit now).lastPollMs now ≤ it.maxPollIntervalMs.toNat :=
    elapsedMs_visit_le
  unfold wait
  omega

/-- The addition does not wrap. -/
theorem schedule_toNat (h : it.maxPollIntervalMs.toNat ≤ 43200000) :
    ((it.visit now).schedule now).toNat = it.wait now := by
  have hwait := wait_le now h
  rw [schedule, UInt64.toNat_add, toNat_sub_eq_elapsedMs, visit_maxPollIntervalMs, ← wait]
  exact Nat.mod_eq_of_lt (by omega)

end Item

/-! ## The table -/

namespace Objects

/-- The items of a table. -/
def items (objects : Objects) : Set Item := {it | ∃ obj, objects.lookup obj = some it}

/-- No interval is longer than half of the largest `max.poll.interval.ms`. -/
def Bounded (objects : Objects) : Prop :=
  ∀ it ∈ objects.items, it.maxPollIntervalMs.toNat ≤ 43200000

theorem entries_ne_nil {objects : Objects} (hne : objects ≠ ∅) : objects.entries ≠ [] :=
  fun hnil => hne (AList.ext hnil)

variable {objects : Objects}

/-- The schedule of a table that is not empty: the least of the waits of its items. -/
theorem Bounded.schedule (h : objects.Bounded) (now : UInt64) (hne : objects ≠ ∅) :
    IsLeast (Set.image (·.wait now) objects.items)
      (sweep now objects.entries kMaxUInt64).nextSchedule.toNat := by
  rw [sweep_nextSchedule]
  set times := objects.entries.map fun e => (e.2.visit now).schedule now with htimes
  have hmem : ∀ t, t ∈ times ↔ ∃ it ∈ objects.items, (it.visit now).schedule now = t := by
    intro t
    simp only [htimes, List.mem_map, Sigma.exists, items, Set.mem_ofPred_eq,
      ← AList.mem_lookup_iff, Option.mem_def]
    constructor
    · rintro ⟨obj, it, hit, rfl⟩
      exact ⟨it, ⟨obj, hit⟩, rfl⟩
    · rintro ⟨it, ⟨obj, hit⟩, rfl⟩
      exact ⟨obj, it, hit, rfl⟩
  have hne : times ≠ [] := by simpa [htimes] using entries_ne_nil hne
  refine ⟨?_, ?_⟩
  · obtain ⟨it, hit, hmin⟩ := (hmem _).1 (foldl_min_kMaxUInt64_mem hne)
    exact ⟨it, hit, (Item.schedule_toNat (h it hit)).symm.trans (congrArg UInt64.toNat hmin)⟩
  · rintro _ ⟨it, hit, rfl⟩
    have hle : times.foldl min kMaxUInt64 ≤ (it.visit now).schedule now :=
      List.min_le_of_mem (List.mem_cons_of_mem kMaxUInt64 ((hmem _).2 ⟨it, hit, rfl⟩))
    rw [UInt64.le_iff_toNat_le, Item.schedule_toNat (h it hit)] at hle
    exact hle

theorem Bounded.schedule_le (h : objects.Bounded) (now : UInt64) (hne : objects ≠ ∅) :
    (sweep now objects.entries kMaxUInt64).nextSchedule.toNat ≤ 86400000 := by
  obtain ⟨⟨it, hit, hwait⟩, -⟩ := h.schedule now hne
  exact hwait ▸ Item.wait_le now (h it hit)

end Objects

/-- The multiplication by 1000 does not wrap. -/
theorem toNat_mul_thousand {next : UInt64} (h : next.toNat ≤ 86400000) :
    (next * 1000).toNat = next.toNat * 1000 := by
  rw [UInt64.toNat_mul, show (1000 : UInt64).toNat = 1000 from rfl]
  exact Nat.mod_eq_of_lt (by omega)

/-- A number below 2 ^ 63 stays what it is as a signed one. -/
theorem toInt_toInt64 {n : UInt64} (h : 2 * n.toNat < 2 ^ 64) : n.toInt64.toInt = n.toNat :=
  BitVec.toInt_eq_toNat_of_lt h

theorem timeout_checkMaxPollIntervalMs {objects : Objects} (hne : objects ≠ ∅) (now : UInt64) :
    (checkMaxPollIntervalMs objects now).timeout =
      ((sweep now objects.entries kMaxUInt64).nextSchedule * 1000).toInt64.toInt := by
  have hempty : objects.entries.isEmpty = false :=
    List.isEmpty_eq_false_iff.2 (Objects.entries_ne_nil hne)
  simp only [checkMaxPollIntervalMs, hempty]
  rfl

/-- A multiple of 1000 is even, so the wait is never infinite by a wrap. -/
theorem toInt_mul_thousand_ne (next : UInt64) : (next * 1000).toInt64.toInt ≠ -1 := by
  have hmul : (next * 1000).toBitVec.toNat = next.toNat * 1000 % 2 ^ 64 := by
    change (next * 1000).toNat = _
    rw [UInt64.toNat_mul, show (1000 : UInt64).toNat = 1000 from rfl]
  intro h
  have htoInt : (next * 1000).toInt64.toInt = (next * 1000).toBitVec.toInt := rfl
  rw [htoInt, BitVec.toInt_eq_toNat_cond, hmul] at h
  split at h <;> omega

theorem timeout_eq_neg_one_iff {objects : Objects} {now : UInt64} :
    (checkMaxPollIntervalMs objects now).timeout = -1 ↔ objects = ∅ := by
  constructor
  · intro htimeout
    by_contra hne
    rw [timeout_checkMaxPollIntervalMs hne] at htimeout
    exact toInt_mul_thousand_ne _ htimeout
  · rintro rfl
    rfl

theorem Objects.Bounded.timeout {objects : Objects} {now : UInt64} (h : objects.Bounded)
    (hne : objects ≠ ∅) :
    (checkMaxPollIntervalMs objects now).timeout =
      (sweep now objects.entries kMaxUInt64).nextSchedule.toNat * 1000 := by
  have hmul := toNat_mul_thousand (h.schedule_le now hne)
  have hle := h.schedule_le now hne
  rw [timeout_checkMaxPollIntervalMs hne, toInt_toInt64 (by omega), hmul, Int.natCast_mul]
  rfl

theorem Polls.bounded {objects objects' : Objects} {now : UInt64} {calls : List PollCall}
    (h : Polls objects now objects' calls) (hb : objects.Bounded) : objects'.Bounded := by
  rintro it ⟨obj, hit⟩
  rw [h.lookup, Option.map_eq_some_iff] at hit
  obtain ⟨before, hbefore, rfl⟩ := hit
  have hle := hb before ⟨obj, hbefore⟩
  split <;> exact hle

theorem Objects.Bounded.insert {objects : Objects} (h : objects.Bounded) (obj : ℕ) {it : Item}
    (hit : it.maxPollIntervalMs.toNat ≤ 43200000) : Bounded (AList.insert obj it objects) := by
  rintro it' ⟨obj', hit'⟩
  by_cases hobj : obj' = obj
  · subst hobj
    rw [AList.lookup_insert] at hit'
    exact Option.some.inj hit' ▸ hit
  · rw [AList.lookup_insert_ne hobj] at hit'
    exact h it' ⟨obj', hit'⟩

theorem Objects.Bounded.erase {objects : Objects} (h : objects.Bounded) (obj : ℕ) :
    Bounded (AList.erase obj objects) := by
  rintro it' ⟨obj', hit'⟩
  by_cases hobj : obj' = obj
  · subst hobj
    rw [AList.lookup_erase] at hit'
    cases hit'
  · rw [AList.lookup_erase_ne hobj] at hit'
    exact h it' ⟨obj', hit'⟩

/-! ## The check -/

/-- What a check of the table is to do: the instances that are due are polled, each once, their
`last_poll_ms` is set and nothing else changes; the wait is infinite for an empty table only, and is
otherwise the least of the waits, in microseconds, computed without a wrap. -/
structure ExactSweep (objects : Objects) (now : UInt64) (r : Checked) : Prop where
  once : (r.polls.map PollCall.obj).Nodup
  polls : ∀ call, call ∈ r.polls ↔ ∃ obj it, objects.lookup obj = some it ∧
    it.maxPollIntervalMs.toNat ≤ elapsedMs it.lastPollMs now ∧ call = doPoll obj it.isConsumer
  table : ∀ obj, r.objects.lookup obj = (objects.lookup obj).map fun it =>
    if it.maxPollIntervalMs.toNat ≤ elapsedMs it.lastPollMs now then { it with lastPollMs := now }
    else it
  infinite : r.timeout = -1 ↔ objects = ∅
  bounds : objects ≠ ∅ → 0 ≤ r.timeout ∧ r.timeout ≤ 86400000000
  add : ∀ it ∈ r.objects.items, (it.schedule now).toNat =
    it.maxPollIntervalMs.toNat + elapsedMs it.lastPollMs now
  mul : objects ≠ ∅ →
    ((sweep now objects.entries kMaxUInt64).nextSchedule * 1000).toNat =
      (sweep now objects.entries kMaxUInt64).nextSchedule.toNat * 1000
  convert : objects ≠ ∅ → r.timeout =
    ((sweep now objects.entries kMaxUInt64).nextSchedule * 1000).toNat
  least : objects ≠ ∅ → ∃ wait : ℕ, r.timeout = wait * 1000 ∧
    IsLeast {ms | ∃ it ∈ r.objects.items,
      ms = it.maxPollIntervalMs.toNat + elapsedMs it.lastPollMs now} wait

/-- The item of a swept table is the item of the table after its visit. -/
theorem mem_items_checkMaxPollIntervalMs {objects : Objects} {now : UInt64} {it : Item} :
    it ∈ (checkMaxPollIntervalMs objects now).objects.items ↔
      ∃ before ∈ objects.items, before.visit now = it := by
  simp only [Objects.items, Set.mem_ofPred_eq, lookup_checkMaxPollIntervalMs,
    Option.map_eq_some_iff]
  constructor
  · rintro ⟨obj, before, hbefore, rfl⟩
    exact ⟨before, ⟨obj, hbefore⟩, rfl⟩
  · rintro ⟨before, ⟨obj, hbefore⟩, rfl⟩
    exact ⟨obj, before, hbefore, rfl⟩

theorem Item.wait_visit (it : Item) (now : UInt64) :
    (it.visit now).maxPollIntervalMs.toNat + elapsedMs (it.visit now).lastPollMs now =
      it.wait now := by
  rw [visit_maxPollIntervalMs, wait]

theorem polls_checkMaxPollIntervalMs_eq (objects : Objects) (now : UInt64) :
    (checkMaxPollIntervalMs objects now).polls =
      (objects.entries.filter fun e => e.2.due now).map fun e => doPoll e.1 e.2.isConsumer := by
  rw [checkMaxPollIntervalMs, sweep_polls]

/-- **The check is exact.** -/
theorem exactSweep_checkMaxPollIntervalMs {objects : Objects} (h : objects.Bounded)
    (now : UInt64) : ExactSweep objects now (checkMaxPollIntervalMs objects now) where
  once := by
    rw [polls_checkMaxPollIntervalMs_eq, List.map_map,
      show (PollCall.obj ∘ fun e : Sigma fun _ : ℕ => Item => doPoll e.1 e.2.isConsumer) =
        Sigma.fst from funext fun e => doPoll_obj e.1 e.2.isConsumer]
    exact (List.filter_sublist.map _).nodup objects.nodupKeys
  polls call := by
    simp only [polls_checkMaxPollIntervalMs_eq, List.mem_map, List.mem_filter, Sigma.exists,
      ← AList.mem_lookup_iff, Option.mem_def, Item.due_iff_elapsedMs]
    constructor
    · rintro ⟨obj, it, ⟨hit, hdue⟩, rfl⟩
      exact ⟨obj, it, hit, hdue, rfl⟩
    · rintro ⟨obj, it, hit, hdue, rfl⟩
      exact ⟨obj, it, ⟨hit, hdue⟩, rfl⟩
  table obj := by
    rw [lookup_checkMaxPollIntervalMs]
    exact congrArg (Option.map · _) (funext fun it => if_congr Item.due_iff_elapsedMs rfl rfl)
  infinite := timeout_eq_neg_one_iff
  bounds hne := by
    have hle := h.schedule_le now hne
    rw [h.timeout hne]
    omega
  add it hit := by
    obtain ⟨before, hbefore, rfl⟩ := mem_items_checkMaxPollIntervalMs.1 hit
    rw [Item.schedule_toNat (h before hbefore), Item.wait_visit]
  mul hne := toNat_mul_thousand (h.schedule_le now hne)
  convert hne := by
    rw [h.timeout hne, toNat_mul_thousand (h.schedule_le now hne), Int.natCast_mul]
    rfl
  least hne := by
    refine ⟨_, h.timeout hne, ?_⟩
    have himage : {ms | ∃ it ∈ (checkMaxPollIntervalMs objects now).objects.items,
        ms = it.maxPollIntervalMs.toNat + elapsedMs it.lastPollMs now} =
        Set.image (·.wait now) objects.items := by
      ext ms
      constructor
      · rintro ⟨it, hit, rfl⟩
        obtain ⟨before, hbefore, rfl⟩ := mem_items_checkMaxPollIntervalMs.1 hit
        exact ⟨before, hbefore, (before.wait_visit now).symm⟩
      · rintro ⟨before, hbefore, rfl⟩
        exact ⟨before.visit now, mem_items_checkMaxPollIntervalMs.2 ⟨before, hbefore, rfl⟩,
          (before.wait_visit now).symm⟩
    rw [himage]
    exact h.schedule now hne

/-- Two instances, and a clock that has been set back behind the last poll of the first one. -/
def setBack : Objects := AList.insert 1 ⟨true, 150000, 5000⟩ (AList.insert 2 ⟨false, 43200000, 0⟩ ∅)

theorem exactSweep_setBack : ExactSweep setBack 1000 (checkMaxPollIntervalMs setBack 1000) :=
  exactSweep_checkMaxPollIntervalMs (by
    rintro it ⟨obj, hit⟩
    have hmem : it ∈ setBack.entries.map Sigma.snd := by
      rw [List.mem_map]
      exact ⟨⟨obj, it⟩, AList.mem_lookup_iff.1 hit, rfl⟩
    have hall : ∀ it ∈ setBack.entries.map Sigma.snd, it.maxPollIntervalMs.toNat ≤ 43200000 := by
      decide
    exact hall it hmem) 1000

end Exrdkafka.Nif
