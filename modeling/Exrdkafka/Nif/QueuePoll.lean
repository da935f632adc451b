import Exrdkafka.Nif.Message

/-!
# Polling a partition queue

`enif_consumer_queue_poll` takes events off a partition queue until it has the requested number of
messages or the queue is empty. The offset it returns next to the messages is the offset of the last
one (`enifConsumerQueuePoll_lastOffset`), which is what a batch consumer later stores.
-/

namespace Exrdkafka.Nif

/-- An event on a partition queue, by the messages it carries; an event of another type carries
none. -/
abbrev FetchEvent := List RdMessage

/-- What a poll does to the events of the queue. -/
inductive EventOp where
  /-- `rd_kafka_queue_poll` has returned an event. -/
  | taken (event : FetchEvent)
  /-- `rd_kafka_event_destroy` -/
  | destroyed (event : FetchEvent)
  deriving DecidableEq

/-- The local variables of the poll loop, and what it has done to the events. -/
structure PollState where
  /-- The topic and partition terms, built from the first message. -/
  cached : Option (List UInt8 × ℤ)
  messages : List Message
  lastOffset : ℤ
  ops : List EventOp

namespace PollState

/-- The variables before the loop. -/
def init : PollState := ⟨none, [], -1, []⟩

/-- One message of an event. -/
def push (st : PollState) (msg : RdMessage) : PollState :=
  let (topic, partition) := st.cached.getD (cStr msg.topicName, msg.partition)
  { st with
    cached := some (topic, partition)
    messages := st.messages ++ [makeMessageNif topic partition msg]
    lastOffset := msg.offset }

/-- Something is done to an event. -/
def did (st : PollState) (op : EventOp) : PollState := { st with ops := st.ops ++ [op] }

/-- One event. -/
def handle (st : PollState) (event : FetchEvent) : PollState :=
  (event.foldl push (st.did (.taken event))).did (.destroyed event)

end PollState

/-- The outer loop: an event is taken as long as there are fewer than `max` messages. Returns the
variables and the events left on the queue. -/
def pollLoop (max : ℕ) : List FetchEvent → PollState → PollState × List FetchEvent
  | [], st => (st, [])
  | event :: queue, st =>
    if st.messages.length < max then pollLoop max queue (st.handle event)
    else (st, event :: queue)

/-- `enif_get_uint` -/
def getUint : Term → Option ℕ
  | .int i => if 0 ≤ i ∧ i < 2 ^ 32 then some i.toNat else none
  | _ => none

/-- What a poll returns: `{:ok, messages, last_offset}`, with the events left on the queue and what
was done to the others. -/
structure Polled where
  messages : List Message
  lastOffset : ℤ
  rest : List FetchEvent
  ops : List EventOp

/-- `enif_consumer_queue_poll`; `none` is `badarg`. -/
def enifConsumerQueuePoll (queue : List FetchEvent) (maxBatchSize : Term) : Option Polled :=
  (getUint maxBatchSize).map fun max =>
    let (st, rest) := pollLoop max queue .init
    ⟨st.messages, st.lastOffset, rest, st.ops⟩

/-- The offset a list of messages ends at, `-1` for the empty list. -/
def lastOffset (msgs : List Message) : ℤ := (msgs.getLast?).elim (-1) (·.offset)

@[simp] theorem lastOffset_concat (msgs : List Message) (m : Message) :
    lastOffset (msgs ++ [m]) = m.offset := by
  simp [lastOffset]

theorem foldl_push_lastOffset (event : FetchEvent) {st : PollState}
    (h : st.lastOffset = lastOffset st.messages) :
    (event.foldl PollState.push st).lastOffset =
      lastOffset (event.foldl PollState.push st).messages := by
  induction event generalizing st with
  | nil => exact h
  | cons msg event ih => exact ih (by simp [PollState.push])

theorem pollLoop_lastOffset (max : ℕ) (queue : List FetchEvent) {st : PollState}
    (h : st.lastOffset = lastOffset st.messages) :
    (pollLoop max queue st).1.lastOffset = lastOffset (pollLoop max queue st).1.messages := by
  induction queue generalizing st with
  | nil => exact h
  | cons event queue ih =>
    rw [pollLoop]
    split
    · have htaken : (st.did (.taken event)).lastOffset =
          lastOffset (st.did (.taken event)).messages := h
      exact ih (foldl_push_lastOffset event htaken)
    · exact h

/-- The offset returned by a poll is the one its messages end at. -/
theorem enifConsumerQueuePoll_lastOffset {queue : List FetchEvent} {maxBatchSize : Term}
    {p : Polled} (h : enifConsumerQueuePoll queue maxBatchSize = some p) :
    p.lastOffset = lastOffset p.messages := by
  obtain ⟨max, -, rfl⟩ := Option.map_eq_some_iff.1 h
  exact pollLoop_lastOffset max queue rfl

end Exrdkafka.Nif
