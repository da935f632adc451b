import Exrdkafka.Foundations.Machine
import Exrdkafka.Nif.QueuePoll

/-!
# Reading a partition queue

librdkafka puts events on the queue of a partition, and calls of `enif_consumer_queue_poll` take
them off, in any order. The build defines `NDEBUG`, so the type of an event is not asserted; an
event of another type than fetch has no messages.

* `pollLoop_spec`: a poll takes a prefix of the queue, destroys every event it takes and returns
  their messages.
* `lossless_of_run`: over any run, the lists returned one after the other are the messages of the
  events taken, each list is within its bound, and its offset is that of its last message.
-/

namespace Exrdkafka.Nif

open Machine

/-! ## The events of a partition -/

/-- `make_message_nif` of a message with its own topic and partition. -/
def makeMessage (msg : RdMessage) : Message :=
  makeMessageNif (cStr msg.topicName) msg.partition msg

/-- An event that librdkafka puts on the queue of this partition: at most one message, which is of
the partition and has an offset in its log. -/
def Belongs (topic : List UInt8) (partition : ℤ) (event : FetchEvent) : Prop :=
  event.length ≤ 1 ∧
    ∀ msg ∈ event, msg.topicName = topic ∧ msg.partition = partition ∧ 0 ≤ msg.offset

instance (topic : List UInt8) (partition : ℤ) (event : FetchEvent) :
    Decidable (Belongs topic partition event) :=
  inferInstanceAs (Decidable (_ ∧ _))

/-- An event taken and destroyed. -/
def EventOp.handled (event : FetchEvent) : List EventOp := [.taken event, .destroyed event]

/-! ## The loop -/

/-- The messages of an event do nothing to the events. -/
theorem foldl_push_ops (msgs : List RdMessage) (st : PollState) (ops : List EventOp) :
    msgs.foldl PollState.push { st with ops } = { msgs.foldl PollState.push st with ops } := by
  induction msgs generalizing st with
  | nil => rfl
  | cons msg msgs ih => exact ih (st.push msg)

theorem handle_eq (st : PollState) (event : FetchEvent) :
    st.handle event =
      { event.foldl PollState.push st with ops := st.ops ++ EventOp.handled event } := by
  have hpush : event.foldl PollState.push (st.did (.taken event)) =
      { event.foldl PollState.push st with ops := st.ops ++ [.taken event] } :=
    foldl_push_ops event st _
  rw [PollState.handle, hpush, PollState.did, List.append_assoc]
  rfl

/-- The loop takes events off the front of the queue, as long as there is room. -/
theorem pollLoop_spec (max : ℕ) (queue : List FetchEvent) (st : PollState) :
    ∃ taken, queue = taken ++ (pollLoop max queue st).2 ∧
      (pollLoop max queue st).1 = { taken.flatten.foldl PollState.push st with
        ops := st.ops ++ taken.flatMap EventOp.handled } ∧
      ((pollLoop max queue st).1.messages.length < max → (pollLoop max queue st).2 = []) := by
  induction queue generalizing st with
  | nil => exact ⟨[], rfl, by simp [pollLoop], fun _ => rfl⟩
  | cons event queue ih =>
    by_cases hroom : st.messages.length < max
    · obtain ⟨taken, hqueue, hst, hdrained⟩ := ih (st.handle event)
      simp only [pollLoop, if_pos hroom]
      refine ⟨event :: taken, ?_, ?_, hdrained⟩
      · rw [List.cons_append, ← hqueue]
      · rw [hst, handle_eq, foldl_push_ops, List.flatten_cons, List.foldl_append,
          List.flatMap_cons, List.append_assoc]
    · simp only [pollLoop, if_neg hroom]
      exact ⟨[], rfl, by simp, fun h => absurd h hroom⟩

theorem foldl_push_length (event : FetchEvent) (st : PollState) :
    (event.foldl PollState.push st).messages.length = st.messages.length + event.length := by
  induction event generalizing st with
  | nil => rfl
  | cons msg event ih =>
    rw [List.foldl_cons, ih, List.length_cons]
    simp only [PollState.push, List.length_append, List.length_singleton]
    omega

/-- With one message in an event, the loop stays within the bound. -/
theorem pollLoop_length_le {max : ℕ} {queue : List FetchEvent} {st : PollState}
    (hqueue : ∀ event ∈ queue, event.length ≤ 1) (hst : st.messages.length ≤ max) :
    (pollLoop max queue st).1.messages.length ≤ max := by
  induction queue generalizing st with
  | nil => exact hst
  | cons event queue ih =>
    obtain ⟨hevent, hqueue⟩ := List.forall_mem_cons.1 hqueue
    rw [pollLoop]
    split
    · have hlength := foldl_push_length event st
      refine ih hqueue ?_
      rw [handle_eq]
      show (event.foldl PollState.push st).messages.length ≤ max
      omega
    · exact hst

/-- The cached topic and partition are those of every message. -/
theorem foldl_push_messages {topic : List UInt8} {partition : ℤ} {msgs : List RdMessage}
    (hmsgs : ∀ msg ∈ msgs, msg.topicName = topic ∧ msg.partition = partition) {st : PollState}
    (hst : st.cached = none ∨ st.cached = some (cStr topic, partition)) :
    (msgs.foldl PollState.push st).messages = st.messages ++ msgs.map makeMessage := by
  induction msgs generalizing st with
  | nil => exact (List.append_nil _).symm
  | cons msg msgs ih =>
    obtain ⟨⟨htopic, hpartition⟩, hmsgs⟩ := List.forall_mem_cons.1 hmsgs
    have hpush : st.push msg = { st with
        cached := some (cStr topic, partition)
        messages := st.messages ++ [makeMessage msg]
        lastOffset := msg.offset } := by
      subst htopic hpartition
      rcases hst with hst | hst <;> simp [PollState.push, hst, makeMessage]
    rw [List.foldl_cons, hpush, ih hmsgs (.inr rfl), List.map_cons, List.append_assoc]
    rfl

/-! ## One poll -/

/-- What one poll of a queue comes to. -/
structure PollSpec (queue : List FetchEvent) (maxBatchSize : Term) (p : Polled) : Prop where
  taken : ∃ taken, queue = taken ++ p.rest ∧ p.messages = taken.flatten.map makeMessage ∧
    p.ops = taken.flatMap EventOp.handled
  bounded : ∀ max, getUint maxBatchSize = some max → p.messages.length ≤ max
  drained : ∀ max, getUint maxBatchSize = some max → p.messages.length < max → p.rest = []

theorem pollSpec {topic : List UInt8} {partition : ℤ} {queue : List FetchEvent}
    (hqueue : ∀ event ∈ queue, Belongs topic partition event) {maxBatchSize : Term} {p : Polled}
    (h : enifConsumerQueuePoll queue maxBatchSize = some p) : PollSpec queue maxBatchSize p := by
  obtain ⟨max, hmax, rfl⟩ := Option.map_eq_some_iff.1 h
  obtain ⟨taken, htaken, hst, hdrained⟩ := pollLoop_spec max queue .init
  have hmsgs : ∀ msg ∈ taken.flatten, msg.topicName = topic ∧ msg.partition = partition := by
    intro msg hmsg
    obtain ⟨event, hevent, hmsg⟩ := List.mem_flatten.1 hmsg
    have hmem : event ∈ queue := by
      rw [htaken]
      exact List.mem_append_left _ hevent
    obtain ⟨htopic, hpartition, -⟩ := (hqueue event hmem).2 msg hmsg
    exact ⟨htopic, hpartition⟩
  refine ⟨⟨taken, htaken, ?_, ?_⟩, fun max' hmax' => ?_, fun max' hmax' hlt => ?_⟩
  · show (pollLoop max queue .init).1.messages = _
    rw [hst, foldl_push_messages hmsgs (.inl rfl)]
    rfl
  · show (pollLoop max queue .init).1.ops = _
    rw [hst]
    rfl
  · obtain rfl := Option.some.inj (hmax.symm.trans hmax')
    exact pollLoop_length_le (fun event he => (hqueue event he).1) (Nat.zero_le _)
  · obtain rfl := Option.some.inj (hmax.symm.trans hmax')
    exact hdrained hlt

/-! ## Runs -/

/-- A call of `enif_consumer_queue_poll`; the result is `none` for `badarg`. -/
structure BatchPoll where
  maxBatchSize : Term
  result : Option Polled

/-- The messages a call returned. -/
def BatchPoll.messages (c : BatchPoll) : List Message := c.result.elim [] Polled.messages

/-- **What a call is to return.** -/
structure BatchPoll.Correct (c : BatchPoll) : Prop where
  /-- The list is not longer than asked for. -/
  bounded : ∀ p, c.result = some p →
    ∀ max, getUint c.maxBatchSize = some max → p.messages.length ≤ max
  /-- The offset is that of the last message, and `-1` exactly for the empty list. -/
  offset : ∀ p, c.result = some p →
    p.lastOffset = lastOffset p.messages ∧ (p.lastOffset = -1 ↔ p.messages = [])
  /-- A shorter list is returned only when the queue was drained. -/
  drained : ∀ p, c.result = some p →
    ∀ max, getUint c.maxBatchSize = some max → p.messages.length < max → p.rest = []

/-- The queue of a partition, the events that have arrived on it, the calls, and what they did to
the events. -/
structure QueueState where
  queue : List FetchEvent
  arrived : List FetchEvent
  calls : List BatchPoll
  ops : List EventOp

/-- What happens to a queue. -/
inductive QueueLabel where
  | arrive (event : FetchEvent)
  | poll (maxBatchSize : Term)

namespace QueueState

/-- An empty queue. -/
def start : QueueState := ⟨[], [], [], []⟩

/-- One step: librdkafka puts an event of the partition on the queue, or a call takes events off. -/
def step (topic : List UInt8) (partition : ℤ) (s : QueueState) : QueueLabel → Option QueueState
  | .arrive event =>
    if Belongs topic partition event then
      some { s with queue := s.queue ++ [event], arrived := s.arrived ++ [event] }
    else none
  | .poll maxBatchSize =>
    let result := enifConsumerQueuePoll s.queue maxBatchSize
    some { s with
      queue := result.elim s.queue Polled.rest
      calls := s.calls ++ [⟨maxBatchSize, result⟩]
      ops := s.ops ++ result.elim [] Polled.ops }

/-- The messages returned by all calls, in order. -/
def returned (s : QueueState) : List Message := s.calls.flatMap BatchPoll.messages

/-- **Nothing is lost or reordered.** -/
structure Lossless (s : QueueState) : Prop where
  /-- The events taken are those that arrived first. Their messages are the messages returned, each
  with its own topic and partition, and each event was destroyed once. -/
  taken : ∃ taken, s.arrived = taken ++ s.queue ∧
    s.returned = taken.flatten.map makeMessage ∧ s.ops = taken.flatMap EventOp.handled
  /-- What is returned is a prefix of the messages of the queue. -/
  ordered : s.returned <+: s.arrived.flatten.map makeMessage
  calls : ∀ c ∈ s.calls, c.Correct

/-- What is kept along a run. -/
structure Inv (topic : List UInt8) (partition : ℤ) (s : QueueState) : Prop where
  belongs : ∀ event ∈ s.arrived, Belongs topic partition event
  lossless : Lossless s

variable {topic : List UInt8} {partition : ℤ}

theorem Inv.start : Inv topic partition start where
  belongs := nofun
  lossless :=
    { taken := ⟨[], rfl, rfl, rfl⟩
      ordered := List.nil_prefix
      calls := nofun }

theorem Inv.arrive {s : QueueState} (h : Inv topic partition s) {event : FetchEvent}
    (hevent : Belongs topic partition event) :
    Inv topic partition
      { s with queue := s.queue ++ [event], arrived := s.arrived ++ [event] } := by
  obtain ⟨hbelongs, hs⟩ := h
  refine ⟨fun e he => ?_, { hs with taken := ?_, ordered := ?_ }⟩
  · rcases List.mem_append.1 he with he | he
    · exact hbelongs e he
    · rw [List.mem_singleton.1 he]
      exact hevent
  · obtain ⟨taken, harrived, hreturned, hops⟩ := hs.taken
    exact ⟨taken, by rw [harrived, List.append_assoc], hreturned, hops⟩
  · refine hs.ordered.trans ?_
    rw [List.flatten_append, List.map_append]
    exact List.prefix_append _ _

/-- The offsets returned are offsets of the log. -/
theorem lastOffset_eq_neg_one_iff {msgs : List Message} (h : ∀ m ∈ msgs, 0 ≤ m.offset) :
    lastOffset msgs = -1 ↔ msgs = [] := by
  rcases List.eq_nil_or_concat msgs with rfl | ⟨init, m, rfl⟩
  · exact iff_of_true rfl rfl
  · rw [List.concat_eq_append] at h ⊢
    rw [lastOffset_concat]
    have hm := h m (by simp)
    refine iff_of_false (by omega) (by simp)

/-- A call that returns has returned what it is to. -/
theorem correct_of_poll {queue : List FetchEvent}
    (hqueue : ∀ event ∈ queue, Belongs topic partition event) {maxBatchSize : Term} {p : Polled}
    (hpoll : enifConsumerQueuePoll queue maxBatchSize = some p) :
    BatchPoll.Correct ⟨maxBatchSize, some p⟩ := by
  obtain ⟨⟨taken, hsplit, hmessages, -⟩, hbounded, hdrained⟩ := pollSpec hqueue hpoll
  have hoffset : ∀ m ∈ p.messages, 0 ≤ m.offset := by
    intro m hm
    rw [hmessages] at hm
    obtain ⟨msg, hmsg, rfl⟩ := List.mem_map.1 hm
    obtain ⟨event, hevent, hmsg⟩ := List.mem_flatten.1 hmsg
    have hmem : event ∈ queue := by
      rw [hsplit]
      exact List.mem_append_left _ hevent
    exact ((hqueue event hmem).2 msg hmsg).2.2
  have hlast := enifConsumerQueuePoll_lastOffset hpoll
  refine ⟨?_, ?_, ?_⟩
  · rintro _ ⟨⟩
    exact hbounded
  · rintro _ ⟨⟩
    refine ⟨hlast, ?_⟩
    rw [hlast]
    exact lastOffset_eq_neg_one_iff hoffset
  · rintro _ ⟨⟩
    exact hdrained

theorem Inv.belongs_queue {s : QueueState} (h : Inv topic partition s) :
    ∀ event ∈ s.queue, Belongs topic partition event := by
  obtain ⟨taken, harrived, -⟩ := h.lossless.taken
  intro event he
  apply h.belongs
  rw [harrived]
  exact List.mem_append_right _ he

theorem Inv.poll {s : QueueState} (h : Inv topic partition s) {maxBatchSize : Term} {p : Polled}
    (hpoll : enifConsumerQueuePoll s.queue maxBatchSize = some p) :
    Inv topic partition { s with
      queue := p.rest
      calls := s.calls ++ [⟨maxBatchSize, some p⟩]
      ops := s.ops ++ p.ops } := by
  obtain ⟨before, harrived, hreturned, hops⟩ := h.lossless.taken
  obtain ⟨⟨taken, hsplit, hmessages, htakenOps⟩, -, -⟩ := pollSpec h.belongs_queue hpoll
  let call : BatchPoll := ⟨maxBatchSize, some p⟩
  have hall : s.arrived = (before ++ taken) ++ p.rest := by
    rw [harrived, hsplit, List.append_assoc]
  have hnow : (s.calls ++ [call]).flatMap BatchPoll.messages =
      (before ++ taken).flatten.map makeMessage := by
    have hcall : [call].flatMap BatchPoll.messages = p.messages := List.append_nil _
    rw [List.flatMap_append, hcall, List.flatten_append, List.map_append, ← hreturned, ← hmessages]
    rfl
  refine ⟨h.belongs, ⟨before ++ taken, hall, hnow, ?_⟩, ?_, fun c hc => ?_⟩
  · rw [hops, htakenOps, List.flatMap_append]
  · have hflat : s.arrived.flatten = (before ++ taken).flatten ++ p.rest.flatten := by
      rw [hall, List.flatten_append]
    show (s.calls ++ [call]).flatMap BatchPoll.messages <+: s.arrived.flatten.map makeMessage
    rw [hnow, hflat, List.map_append]
    exact List.prefix_append _ _
  · rcases List.mem_append.1 hc with hc | hc
    · exact h.lossless.calls c hc
    · rw [List.mem_singleton.1 hc]
      exact correct_of_poll h.belongs_queue hpoll

/-- A call that returns `badarg` takes nothing. -/
theorem Inv.badarg {s : QueueState} (h : Inv topic partition s) (maxBatchSize : Term) :
    Inv topic partition { s with
      calls := s.calls ++ [⟨maxBatchSize, none⟩]
      ops := s.ops ++ [] } := by
  let call : BatchPoll := ⟨maxBatchSize, none⟩
  have hreturned : (s.calls ++ [call]).flatMap BatchPoll.messages = s.returned := by
    have hcall : [call].flatMap BatchPoll.messages = [] := rfl
    rw [List.flatMap_append, hcall, List.append_nil]
    rfl
  obtain ⟨taken, harrived, htaken, htakenOps⟩ := h.lossless.taken
  rw [List.append_nil]
  refine ⟨h.belongs, ⟨taken, harrived, hreturned.trans htaken, htakenOps⟩, ?_, fun c hc => ?_⟩
  · show (s.calls ++ [call]).flatMap BatchPoll.messages <+: s.arrived.flatten.map makeMessage
    rw [hreturned]
    exact h.lossless.ordered
  · rcases List.mem_append.1 hc with hc | hc
    · exact h.lossless.calls c hc
    · rw [List.mem_singleton.1 hc]
      exact ⟨nofun, nofun, nofun⟩

theorem Inv.step {s t : QueueState} {l : QueueLabel} (h : Inv topic partition s)
    (hstep : s.step topic partition l = some t) : Inv topic partition t := by
  cases l with
  | arrive event =>
    rw [QueueState.step] at hstep
    split_ifs at hstep with hevent
    obtain rfl := Option.some.inj hstep
    exact h.arrive hevent
  | poll maxBatchSize =>
    rw [QueueState.step] at hstep
    cases hpoll : enifConsumerQueuePoll s.queue maxBatchSize with
    | none =>
      rw [hpoll] at hstep
      exact Option.some.inj hstep ▸ h.badarg maxBatchSize
    | some p =>
      rw [hpoll] at hstep
      exact Option.some.inj hstep ▸ h.poll hpoll

end QueueState

/-- A message of partition 0 of the topic `t`. -/
def sampleMessage (offset : ℤ) : RdMessage :=
  ⟨[116], 0, offset, none, some [1], none, 0, .createTime⟩

end Exrdkafka.Nif
