import Exrdkafka.Foundations.Machine
import Exrdkafka.Foundations.Trace
import Mathlib.Data.List.Count

/-!
# Partition queue handles

`QueueManager` keeps the partition queues that are taken off the main queue of a consumer. A handle
comes from `rd_kafka_queue_get_partition`, is kept in an `enif_queue` resource as well, and has to
be given back with `rd_kafka_queue_destroy`. Four operations work on it: `enif_new_queue`,
`enif_consumer_queue_cleanup`, `enif_queue_free` (the destructor of the resource) and the
`clear_all` of `cleanup_consumer`.

Handles are numbers, given out in the order of the calls; a resource has the number of the handle it
was made for. The calls of librdkafka are recorded.

* `Accounts` is the invariant: where a handle is and which calls were made on it.
* `always_balanced_iff`: the handles are balanced exactly in the runs that free no resource whose
  handle `clear_all` has taken out of the set.
-/

namespace Exrdkafka.Nif

open Machine Trace

/-- The calls of librdkafka. -/
inductive QueueCall where
  /-- `rd_kafka_queue_get_partition` -/
  | getPartition (h : ℕ)
  /-- `rd_kafka_queue_forward(queue, NULL)` -/
  | forwardNull (h : ℕ)
  /-- `rd_kafka_queue_get_consumer` -/
  | getMain
  /-- `rd_kafka_queue_forward(queue, main_queue)` -/
  | forwardMain (h : ℕ)
  /-- `rd_kafka_queue_destroy(main_queue)` -/
  | destroyMain
  /-- `rd_kafka_queue_destroy(queue)` -/
  | destroy (h : ℕ)
  deriving DecidableEq

/-! ## The queue manager -/

/-- `QueueManager`: the set `queues_`, with the calls made so far. -/
structure QueueManager where
  queues : List ℕ
  calls : List QueueCall

namespace QueueManager

/-- `QueueManager::add` -/
def add (qm : QueueManager) (queue : ℕ) : QueueManager where
  queues := queue :: qm.queues
  calls := qm.calls ++ [.forwardNull queue]

/-- `QueueManager::remove`; no handle is the null pointer. -/
def remove (qm : QueueManager) : Option ℕ → QueueManager
  | none => qm
  | some queue =>
    if queue ∈ qm.queues then
      { queues := qm.queues.erase queue
        calls := qm.calls ++ [.getMain, .forwardMain queue, .destroyMain, .destroy queue] }
    else qm

/-- The calls `clear_all` makes for one queue. -/
def forwardBack (queue : ℕ) : List QueueCall := [.getMain, .forwardMain queue, .destroyMain]

/-- `QueueManager::clear_all` -/
def clearAll (qm : QueueManager) : QueueManager where
  queues := []
  calls := qm.calls ++ qm.queues.flatMap forwardBack

end QueueManager

/-! ## The operations on a consumer -/

/-- A consumer's queue manager with its `enif_queue` resources. -/
structure Queues where
  qm : QueueManager
  /-- the number of handles given out -/
  next : ℕ
  /-- the field `queue` of each resource -/
  field : ℕ → Option ℕ
  /-- the resources that are freed -/
  freed : List ℕ
  /-- the handles that were in the set when it was cleared -/
  cleared : List ℕ

/-- The operations, on the resource they are called with. -/
inductive QueueOp where
  | newQueue
  | queueCleanup (r : ℕ)
  | queueFree (r : ℕ)
  | clearAll

namespace Queues

/-- `enif_new_queue` -/
def newQueue (s : Queues) : Queues where
  qm := (QueueManager.mk s.qm.queues (s.qm.calls ++ [.getPartition s.next])).add s.next
  next := s.next + 1
  field := Function.update s.field s.next (some s.next)
  freed := s.freed
  cleared := s.cleared

/-- `enif_consumer_queue_cleanup` -/
def queueCleanup (s : Queues) (r : ℕ) : Queues :=
  { s with qm := s.qm.remove (s.field r), field := Function.update s.field r none }

/-- `enif_queue_free` -/
def queueFree (s : Queues) (r : ℕ) : Queues :=
  { s with qm := s.qm.remove (s.field r), freed := r :: s.freed }

/-- `clear_all`, called by `cleanup_consumer`. -/
def clearAll (s : Queues) : Queues :=
  { s with qm := s.qm.clearAll, cleared := s.qm.queues ++ s.cleared }

/-- One operation. A resource is used until its destructor has run, which it does once. -/
def step (s : Queues) : QueueOp → Option Queues
  | .newQueue => some s.newQueue
  | .queueCleanup r => if r < s.next ∧ r ∉ s.freed then some (s.queueCleanup r) else none
  | .queueFree r => if r < s.next ∧ r ∉ s.freed then some (s.queueFree r) else none
  | .clearAll => some s.clearAll

/-- A consumer without queues. -/
def start : Queues := ⟨⟨[], []⟩, 0, fun _ => none, [], []⟩

end Queues

/-! ## Balanced handles -/

/-- The partition queue a call uses. -/
def QueueCall.handle : QueueCall → Option ℕ
  | .getPartition h | .forwardNull h | .forwardMain h | .destroy h => some h
  | .getMain | .destroyMain => none

/-- No call uses a handle that was destroyed before. -/
def Unused (calls : List QueueCall) : Prop :=
  AtEach (fun pre c => ∀ h, c.handle = some h → .destroy h ∉ pre) calls

/-- The handles are balanced. -/
structure Balanced (s : Queues) : Prop where
  /-- The set holds the handles that were added and not removed or cleared. -/
  queues : ∀ h, h ∈ s.qm.queues ↔
    .forwardNull h ∈ s.qm.calls ∧ .forwardMain h ∉ s.qm.calls
  /-- A handle is taken off the main queue once. -/
  taken : ∀ h, .getPartition h ∈ s.qm.calls → s.qm.calls.count (.forwardNull h) = 1
  /-- A handle is forwarded back once, when it leaves the set. -/
  back : ∀ h, .getPartition h ∈ s.qm.calls →
    s.qm.calls.count (.forwardMain h) = if h ∈ s.qm.queues then 0 else 1
  /-- The handle of a freed resource was destroyed exactly once. -/
  destroyed : ∀ h ∈ s.freed, s.qm.calls.count (.destroy h) = 1
  /-- No handle is destroyed twice. -/
  once : ∀ h, s.qm.calls.count (.destroy h) ≤ 1
  unused : Unused s.qm.calls

/-- Where the handles are and which calls were made on them. -/
structure Accounts (s : Queues) : Prop where
  nodup : s.qm.queues.Nodup
  queues_lt : ∀ h ∈ s.qm.queues, h < s.next
  /-- A handle in the set is in its resource. -/
  field : ∀ h ∈ s.qm.queues, s.field h = some h
  field_eq : ∀ r h, s.field r = some h → h = r
  freed_lt : ∀ h ∈ s.freed, h < s.next
  freed : ∀ h ∈ s.freed, h ∉ s.qm.queues
  cleared_lt : ∀ h ∈ s.cleared, h < s.next
  cleared : ∀ h ∈ s.cleared, h ∉ s.qm.queues
  getPartition : ∀ h, s.qm.calls.count (.getPartition h) = if h < s.next then 1 else 0
  forwardNull : ∀ h, s.qm.calls.count (.forwardNull h) = if h < s.next then 1 else 0
  forwardMain : ∀ h, s.qm.calls.count (.forwardMain h) =
    if h < s.next ∧ h ∉ s.qm.queues then 1 else 0
  destroy : ∀ h, s.qm.calls.count (.destroy h) =
    if h < s.next ∧ h ∉ s.qm.queues ∧ h ∉ s.cleared then 1 else 0
  unused : Unused s.qm.calls

/-- The handles are balanced unless a resource was freed whose handle was cleared. -/
theorem Accounts.balanced_iff {s : Queues} (h : Accounts s) :
    Balanced s ↔ ∀ r ∈ s.freed, r ∉ s.cleared := by
  have hget : ∀ q, .getPartition q ∈ s.qm.calls ↔ q < s.next := fun q => by
    rw [← List.count_pos_iff, h.getPartition]
    split <;> simp_all
  constructor
  · intro hb r hr hcleared
    have hone := hb.destroyed r hr
    rw [h.destroy, if_neg (fun hno => hno.2.2 hcleared)] at hone
    exact absurd hone (by decide)
  · intro hfreed
    refine ⟨fun q => ?_, fun q hq => ?_, fun q hq => ?_, fun q hq => ?_, fun q => ?_, h.unused⟩
    · have hnull : .forwardNull q ∈ s.qm.calls ↔ q < s.next := by
        rw [← List.count_pos_iff, h.forwardNull]
        split <;> simp_all
      rw [hnull, ← List.count_eq_zero, h.forwardMain]
      by_cases hq : q ∈ s.qm.queues
      · simp [hq, h.queues_lt q hq]
      · by_cases hlt : q < s.next <;> simp [hq, hlt]
    · rw [h.forwardNull, if_pos ((hget q).1 hq)]
    · rw [h.forwardMain]
      simp [(hget q).1 hq]
    · rw [h.destroy, if_pos ⟨h.freed_lt q hq, h.freed q hq, hfreed q hq⟩]
    · rw [h.destroy]
      split <;> simp

theorem Accounts.destroy_notMem {s : Queues} (h : Accounts s) {q : ℕ}
    (hq : ¬ (q < s.next ∧ q ∉ s.qm.queues ∧ q ∉ s.cleared)) : .destroy q ∉ s.qm.calls := by
  rw [← List.count_eq_zero, h.destroy, if_neg hq]

theorem accounts_start : Accounts Queues.start := by
  constructor <;> simp [Queues.start, Unused]

/-! ## The operations keep the accounts -/

theorem unused_append {calls more : List QueueCall} (h : Unused calls)
    (hmore : ∀ c ∈ more, ∀ q, c.handle = some q → .destroy q ∉ calls)
    (hno : ∀ q, .destroy q ∉ more) : Unused (calls ++ more) := by
  refine AtEach.append h fun pre c post hsplit q hq hmem => ?_
  have hc : c ∈ more := by simp [hsplit]
  rcases List.mem_append.1 hmem with hmem | hmem
  · exact hmore c hc q hq hmem
  · exact hno q (by simp [hsplit, hmem])

theorem calls_newQueue (s : Queues) :
    s.newQueue.qm.calls = s.qm.calls ++ [.getPartition s.next, .forwardNull s.next] := by
  simp [Queues.newQueue, QueueManager.add]

theorem count_newQueue (s : Queues) (c : QueueCall) :
    s.newQueue.qm.calls.count c = s.qm.calls.count c +
      ((if .getPartition s.next = c then 1 else 0) + if .forwardNull s.next = c then 1 else 0) := by
  rw [calls_newQueue, List.count_append]
  simp only [List.count_cons, List.count_nil, beq_iff_eq]
  omega

theorem mem_newQueue (s : Queues) (q : ℕ) :
    q ∈ s.newQueue.qm.queues ↔ q = s.next ∨ q ∈ s.qm.queues :=
  List.mem_cons

theorem Accounts.forwardMain_newQueue {s : Queues} (h : Accounts s) (q : ℕ) :
    s.newQueue.qm.calls.count (.forwardMain q) =
      if q < s.next + 1 ∧ q ∉ s.newQueue.qm.queues then 1 else 0 := by
  have hiff : (q < s.next + 1 ∧ q ∉ s.newQueue.qm.queues) ↔ q < s.next ∧ q ∉ s.qm.queues := by
    rw [mem_newQueue, not_or]
    exact ⟨fun ⟨hq, hne, hno⟩ => ⟨by omega, hno⟩, fun ⟨hq, hno⟩ => ⟨by omega, by omega, hno⟩⟩
  rw [count_newQueue, h.forwardMain, if_congr hiff rfl rfl]
  simp

theorem Accounts.destroy_newQueue {s : Queues} (h : Accounts s) (q : ℕ) :
    s.newQueue.qm.calls.count (.destroy q) =
      if q < s.next + 1 ∧ q ∉ s.newQueue.qm.queues ∧ q ∉ s.cleared then 1 else 0 := by
  have hiff : (q < s.next + 1 ∧ q ∉ s.newQueue.qm.queues ∧ q ∉ s.cleared) ↔
      q < s.next ∧ q ∉ s.qm.queues ∧ q ∉ s.cleared := by
    rw [mem_newQueue, not_or]
    exact ⟨fun ⟨hq, ⟨hne, hno⟩, hc⟩ => ⟨by omega, hno, hc⟩,
      fun ⟨hq, hno, hc⟩ => ⟨by omega, ⟨by omega, hno⟩, hc⟩⟩
  rw [count_newQueue, h.destroy, if_congr hiff rfl rfl]
  simp

theorem Accounts.unused_newQueue {s : Queues} (h : Accounts s) : Unused s.newQueue.qm.calls := by
  have hfresh : .destroy s.next ∉ s.qm.calls :=
    h.destroy_notMem fun hlt => absurd hlt.1 (lt_irrefl _)
  rw [calls_newQueue]
  refine unused_append h.unused (fun c hc q hq => ?_) (by simp)
  have hqn : q = s.next := by
    rcases List.mem_cons.1 hc with rfl | hc
    · exact (Option.some.inj hq).symm
    · obtain rfl := List.mem_singleton.1 hc
      exact (Option.some.inj hq).symm
  exact hqn ▸ hfresh

/-- Making a queue keeps the accounts: its number is new. -/
theorem Accounts.newQueue {s : Queues} (h : Accounts s) : Accounts s.newQueue := by
  have hlt : ∀ q ∈ s.qm.queues, q < s.next := h.queues_lt
  have hnotin : s.next ∉ s.qm.queues := fun hq => absurd (hlt _ hq) (lt_irrefl _)
  have hnext : s.newQueue.next = s.next + 1 := rfl
  refine ⟨List.nodup_cons.2 ⟨hnotin, h.nodup⟩, fun q hq => ?_, fun q hq => ?_, fun r q hr => ?_,
    fun q hq => ?_, fun q hq hmem => ?_, fun q hq => ?_, fun q hq hmem => ?_, fun q => ?_,
    fun q => ?_, h.forwardMain_newQueue, h.destroy_newQueue, h.unused_newQueue⟩
  · rcases (mem_newQueue s q).1 hq with rfl | hq
    · exact Nat.lt_succ_self _
    · exact (hlt q hq).trans (Nat.lt_succ_self _)
  · rcases (mem_newQueue s q).1 hq with rfl | hq
    · exact Function.update_self _ _ _
    · exact (Function.update_of_ne (hlt q hq).ne _ _).trans (h.field q hq)
  · by_cases hrn : r = s.next
    · have hself : s.newQueue.field r = some r := hrn ▸ Function.update_self _ _ _
      exact Option.some.inj (hr.symm.trans hself)
    · exact h.field_eq r q ((Function.update_of_ne hrn _ _).symm.trans hr)
  · exact (h.freed_lt q hq).trans (Nat.lt_succ_self _)
  · rcases (mem_newQueue s q).1 hmem with rfl | hmem
    · exact absurd (h.freed_lt _ hq) (lt_irrefl _)
    · exact h.freed q hq hmem
  · exact (h.cleared_lt q hq).trans (Nat.lt_succ_self _)
  · rcases (mem_newQueue s q).1 hmem with rfl | hmem
    · exact absurd (h.cleared_lt _ hq) (lt_irrefl _)
    · exact h.cleared q hq hmem
  · rw [count_newQueue, h.getPartition, hnext]
    simp only [QueueCall.getPartition.injEq, reduceCtorEq, if_false]
    split_ifs <;> omega
  · rw [count_newQueue, h.forwardNull, hnext]
    simp only [QueueCall.forwardNull.injEq, reduceCtorEq, if_false]
    split_ifs <;> omega

/-- The calls `remove` makes for a handle in the set. -/
def removeCalls (q : ℕ) : List QueueCall := [.getMain, .forwardMain q, .destroyMain, .destroy q]

/-- Removing the handle of a resource: it is destroyed if it is in the set. -/
theorem Accounts.remove_field {s : Queues} (h : Accounts s) (r : ℕ) :
    s.qm.remove (s.field r) =
      if r ∈ s.qm.queues then ⟨s.qm.queues.erase r, s.qm.calls ++ removeCalls r⟩ else s.qm := by
  by_cases hr : r ∈ s.qm.queues
  · rw [h.field r hr]
    rfl
  · rw [if_neg hr]
    cases hq : s.field r with
    | none => rfl
    | some q =>
      obtain rfl := h.field_eq r q hq
      exact if_neg hr

/-- What the two operations that remove the handle of a resource have in common. -/
structure Removes (s s' : Queues) (r : ℕ) : Prop where
  qm : s'.qm = s.qm.remove (s.field r)
  next : s'.next = s.next
  field : ∀ q, q ≠ r → s'.field q = s.field q
  field_eq : ∀ q, s'.field r = some q → q = r
  freed : ∀ q ∈ s'.freed, q ∈ s.freed ∨ q = r
  cleared : s'.cleared = s.cleared

theorem Accounts.queueCleanup_removes (s : Queues) (r : ℕ) :
    Removes s (s.queueCleanup r) r where
  qm := rfl
  next := rfl
  field q hq := Function.update_of_ne hq _ _
  field_eq q hq := by
    have hnone : (s.queueCleanup r).field r = none := Function.update_self _ _ _
    rw [hnone] at hq
    cases hq
  freed _ hq := Or.inl hq
  cleared := rfl

theorem Accounts.queueFree_removes {s : Queues} (h : Accounts s) (r : ℕ) :
    Removes s (s.queueFree r) r where
  qm := rfl
  next := rfl
  field _ _ := rfl
  field_eq _ hq := h.field_eq r _ hq
  freed _ hq := (List.mem_cons.1 hq).symm
  cleared := rfl

theorem count_removeCalls_forwardMain (r q : ℕ) :
    (removeCalls r).count (.forwardMain q) = if r = q then 1 else 0 := by
  simp [removeCalls, List.count_cons]

theorem count_removeCalls_destroy (r q : ℕ) :
    (removeCalls r).count (.destroy q) = if r = q then 1 else 0 := by
  simp [removeCalls, List.count_cons]

theorem handle_forwardBack {r q : ℕ} {c : QueueCall} (hc : c ∈ QueueManager.forwardBack r)
    (hq : c.handle = some q) : q = r := by
  simp only [QueueManager.forwardBack, List.mem_cons, List.not_mem_nil, or_false] at hc
  obtain rfl | rfl | rfl := hc
  · cases hq
  · exact (Option.some.inj hq).symm
  · cases hq

theorem unused_removeCalls {calls : List QueueCall} (h : Unused calls) {r : ℕ}
    (hr : .destroy r ∉ calls) : Unused (calls ++ removeCalls r) := by
  have hbefore : Unused (calls ++ QueueManager.forwardBack r) :=
    unused_append h (fun c hc q hq => handle_forwardBack hc hq ▸ hr)
      (by simp [QueueManager.forwardBack])
  have hsplit : calls ++ removeCalls r = (calls ++ QueueManager.forwardBack r) ++ [.destroy r] := by
    simp [removeCalls, QueueManager.forwardBack]
  rw [hsplit]
  refine atEach_concat.2 ⟨hbefore, fun q hq => ?_⟩
  obtain rfl := Option.some.inj hq
  simpa [QueueManager.forwardBack] using hr

theorem Accounts.forwardMain_removed {s : Queues} (h : Accounts s) {r : ℕ} (hr : r < s.next)
    (hmem : r ∈ s.qm.queues) (q : ℕ) :
    (s.qm.calls ++ removeCalls r).count (.forwardMain q) =
      if q < s.next ∧ q ∉ s.qm.queues.erase r then 1 else 0 := by
  rw [List.count_append, h.forwardMain, count_removeCalls_forwardMain]
  by_cases hq : r = q
  · subst hq
    simp [hmem, hr, h.nodup.mem_erase_iff]
  · simp [hq, Ne.symm hq, h.nodup.mem_erase_iff]

theorem Accounts.destroy_removed {s : Queues} (h : Accounts s) {r : ℕ} (hr : r < s.next)
    (hmem : r ∈ s.qm.queues) (q : ℕ) :
    (s.qm.calls ++ removeCalls r).count (.destroy q) =
      if q < s.next ∧ q ∉ s.qm.queues.erase r ∧ q ∉ s.cleared then 1 else 0 := by
  rw [List.count_append, h.destroy, count_removeCalls_destroy]
  by_cases hq : r = q
  · subst hq
    have hnot : r ∉ s.cleared := fun hcleared => h.cleared r hcleared hmem
    simp [hmem, hr, hnot, h.nodup.mem_erase_iff]
  · simp [hq, Ne.symm hq, h.nodup.mem_erase_iff]

/-- Removing the handle of a resource keeps the accounts. -/
theorem Accounts.removes {s s' : Queues} (h : Accounts s) {r : ℕ} (hr : r < s.next)
    (hs : Removes s s' r) : Accounts s' := by
  have hfield_eq : ∀ q p, s'.field q = some p → p = q := by
    intro q p hp
    by_cases hq : q = r
    · subst hq
      exact hs.field_eq p hp
    · exact h.field_eq q p ((hs.field q hq).symm.trans hp)
  have hfreed_lt : ∀ q ∈ s'.freed, q < s.next := by
    intro q hq
    rcases hs.freed q hq with hq | rfl
    · exact h.freed_lt q hq
    · exact hr
  have hfield := hs.field
  have hfreed := hs.freed
  obtain ⟨qm, next, field, freed, cleared⟩ := s'
  obtain rfl : qm = _ := hs.qm.trans (h.remove_field r)
  obtain rfl : next = _ := hs.next
  obtain rfl : cleared = _ := hs.cleared
  by_cases hmem : r ∈ s.qm.queues
  · have herase : ∀ q, q ∈ s.qm.queues.erase r ↔ q ≠ r ∧ q ∈ s.qm.queues := fun q =>
      h.nodup.mem_erase_iff
    rw [if_pos hmem]
    refine ⟨?_, ?_, ?_, hfield_eq, hfreed_lt, ?_, h.cleared_lt, ?_, ?_, ?_, ?_, ?_, ?_⟩
    · exact h.nodup.erase r
    · exact fun q hq => h.queues_lt q ((herase q).1 hq).2
    · intro q hq
      obtain ⟨hne, hq⟩ := (herase q).1 hq
      exact (hfield q hne).trans (h.field q hq)
    · intro q hq hin
      obtain ⟨hne, hin⟩ := (herase q).1 hin
      exact h.freed q ((hfreed q hq).resolve_right hne) hin
    · exact fun q hq hin => h.cleared q hq ((herase q).1 hin).2
    · intro q
      simpa [removeCalls] using h.getPartition q
    · intro q
      simpa [removeCalls] using h.forwardNull q
    · exact h.forwardMain_removed hr hmem
    · exact h.destroy_removed hr hmem
    · exact unused_removeCalls h.unused (h.destroy_notMem fun hno => hno.2.1 hmem)
  · rw [if_neg hmem]
    refine ⟨h.nodup, h.queues_lt, ?_, hfield_eq, hfreed_lt, ?_, h.cleared_lt, h.cleared,
      h.getPartition, h.forwardNull, h.forwardMain, h.destroy, h.unused⟩
    · intro q hq
      have hne : q ≠ r := fun e => hmem (e ▸ hq)
      exact (hfield q hne).trans (h.field q hq)
    · intro q hq
      rcases hfreed q hq with hq | rfl
      · exact h.freed q hq
      · exact hmem

theorem count_forwardBack (queues : List ℕ) (q : ℕ) :
    (queues.flatMap QueueManager.forwardBack).count (.forwardMain q) = queues.count q := by
  induction queues with
  | nil => rfl
  | cons r queues ih =>
    have hone : (QueueManager.forwardBack r).count (.forwardMain q) = if r == q then 1 else 0 := by
      simp [QueueManager.forwardBack, List.count_cons]
    rw [List.flatMap_cons, List.count_append, ih, hone, List.count_cons]
    omega

theorem count_forwardBack_other (queues : List ℕ) {c : QueueCall}
    (hc : ∀ r, c ∉ QueueManager.forwardBack r) :
    (queues.flatMap QueueManager.forwardBack).count c = 0 := by
  rw [List.count_eq_zero, List.mem_flatMap]
  exact fun ⟨r, _, hr⟩ => hc r hr

/-- Clearing the set keeps the accounts. -/
theorem Accounts.clearAll {s : Queues} (h : Accounts s) : Accounts s.clearAll := by
  have hcalls : s.clearAll.qm.calls =
      s.qm.calls ++ s.qm.queues.flatMap QueueManager.forwardBack := rfl
  have hqueues : s.clearAll.qm.queues = [] := rfl
  have hcleared : s.clearAll.cleared = s.qm.queues ++ s.cleared := rfl
  have hnext : s.clearAll.next = s.next := rfl
  have hdestroy : ∀ q, .destroy q ∉ s.qm.queues.flatMap QueueManager.forwardBack := fun q hq =>
    absurd (List.count_pos_iff.2 hq)
      (by rw [count_forwardBack_other _ (by simp [QueueManager.forwardBack])]; exact lt_irrefl _)
  refine ⟨List.nodup_nil, by simp [hqueues], by simp [hqueues], h.field_eq, h.freed_lt,
    by simp [hqueues], ?_, by simp [hqueues], ?_, ?_, ?_, ?_, ?_⟩
  · intro q hq
    rcases List.mem_append.1 hq with hq | hq
    · exact h.queues_lt q hq
    · exact h.cleared_lt q hq
  · intro q
    rw [hcalls, hnext, List.count_append, h.getPartition,
      count_forwardBack_other _ (by simp [QueueManager.forwardBack])]
    rfl
  · intro q
    rw [hcalls, hnext, List.count_append, h.forwardNull,
      count_forwardBack_other _ (by simp [QueueManager.forwardBack])]
    rfl
  · intro q
    rw [hcalls, hqueues, hnext, List.count_append, h.forwardMain, count_forwardBack,
      h.nodup.count]
    by_cases hq : q ∈ s.qm.queues
    · simp [hq, h.queues_lt q hq]
    · simp [hq]
  · intro q
    rw [hcalls, hqueues, hnext, hcleared, List.count_append, h.destroy,
      count_forwardBack_other _ (by simp [QueueManager.forwardBack])]
    simp [not_or]
  · rw [hcalls]
    refine unused_append h.unused (fun c hc q hq => ?_) hdestroy
    obtain ⟨r, hr, hc⟩ := List.mem_flatMap.1 hc
    obtain rfl := handle_forwardBack hc hq
    exact h.destroy_notMem fun hno => hno.2.1 hr

/-- **One operation keeps the accounts.** -/
theorem Accounts.step {s s' : Queues} {op : QueueOp} (h : Accounts s)
    (hstep : s.step op = some s') : Accounts s' := by
  cases op with
  | newQueue => exact Option.some.inj hstep ▸ h.newQueue
  | queueCleanup r =>
    simp only [Queues.step] at hstep
    split_ifs at hstep with hr
    exact Option.some.inj hstep ▸ h.removes hr.1 (Accounts.queueCleanup_removes s r)
  | queueFree r =>
    simp only [Queues.step] at hstep
    split_ifs at hstep with hr
    exact Option.some.inj hstep ▸ h.removes hr.1 (h.queueFree_removes r)
  | clearAll => exact Option.some.inj hstep ▸ h.clearAll

/-- The operation does not free a resource whose handle was cleared. -/
def FreesUncleared (s : Queues) : QueueOp → Prop
  | .queueFree r => r ∉ s.cleared
  | _ => True

theorem balanced_step {s s' : Queues} {op : QueueOp} (h : Accounts s) (hb : Balanced s)
    (hstep : s.step op = some s') : Balanced s' ↔ FreesUncleared s op := by
  have hfreed := h.balanced_iff.1 hb
  rw [(h.step hstep).balanced_iff]
  cases op with
  | newQueue =>
    obtain rfl := Option.some.inj hstep
    exact iff_of_true hfreed trivial
  | queueCleanup r =>
    simp only [Queues.step] at hstep
    split_ifs at hstep with hr
    obtain rfl := Option.some.inj hstep
    exact iff_of_true hfreed trivial
  | queueFree r =>
    simp only [Queues.step] at hstep
    split_ifs at hstep with hr
    obtain rfl := Option.some.inj hstep
    exact List.forall_mem_cons.trans (and_iff_left hfreed)
  | clearAll =>
    obtain rfl := Option.some.inj hstep
    refine iff_of_true (fun r hr hcleared => ?_) trivial
    rcases List.mem_append.1 hcleared with hq | hq
    · exact h.freed r hr hq
    · exact hfreed r hr hq

/-- **When the handles are balanced.** In every run of the operations, the handles are balanced all
along exactly when no resource is freed whose handle `clear_all` took out of the set. -/
theorem always_balanced_iff {ops : List QueueOp} {s : Queues}
    (hrun : run Queues.step Queues.start ops = some s) :
    Always Queues.step Balanced Queues.start ops ↔
      Along Queues.step FreesUncleared Queues.start ops := by
  have hb : Balanced Queues.start := accounts_start.balanced_iff.2 (by simp [Queues.start])
  exact always_iff_along (fun _ _ _ h hs => h.step hs) (fun _ _ _ => balanced_step)
    accounts_start hb hrun

/-- A queue whose consumer is cleaned up before its resource is freed: the handle is never
destroyed. -/
theorem cleared_notDestroyed :
    ¬ Always Queues.step Balanced Queues.start [.newQueue, .clearAll, .queueFree 0] := by
  intro h
  have hone := (h.last rfl).destroyed 0 (by decide)
  exact absurd hone (by decide)

/-- Two queues, one cleaned up and one freed, before the consumer is cleaned up. -/
theorem always_balanced_iff_sample :
    Always Queues.step Balanced Queues.start
        [.newQueue, .newQueue, .queueCleanup 0, .queueFree 0, .queueFree 1, .clearAll] ↔
      Along Queues.step FreesUncleared Queues.start
        [.newQueue, .newQueue, .queueCleanup 0, .queueFree 0, .queueFree 1, .clearAll] :=
  always_balanced_iff rfl

end Exrdkafka.Nif
