import Exrdkafka.Foundations.GenServer
import Exrdkafka.Nif.Produce
import Exrdkafka.Utils

/-!
# The producer process

`Exrdkafka.Producer` keeps the messages librdkafka had no room for in a local disk queue and drains
that queue from time to time. The queue of `:esq` is a FIFO queue: `head` shows the element that the
next `deq` removes. Its content is kept here as a list, the head first.
-/

namespace Exrdkafka.Producer

open GenServer Nif

/-! ## The local queue -/

/-- A queued tuple: `enq` writes six elements, tuples of five have no timestamp. -/
inductive Payload where
  | five (topicName partition key value headers : Term)
  | six (event : Event)
  deriving DecidableEq

namespace LocalQueue

/-- `LocalQueue.enq` -/
def enq (q : List Payload) (e : Event) : List Payload := q ++ [.six e]

/-- `LocalQueue.head` -/
def head (q : List Payload) : Option Payload := q.head?

/-- `LocalQueue.deq` -/
def deq (q : List Payload) : List Payload := q.tail

end LocalQueue

/-- `decode_queued_message` -/
def decodeQueuedMessage : Payload → Event
  | .five t p k v h => ⟨t, p, k, v, h, .int 0⟩
  | .six e => e

/-! ## Draining the queue -/

/-- One call of the produce NIF made by the drain: the queued tuple at the head, the message
offered, the result, and whether the tuple was then taken off the queue. -/
structure Attempt where
  payload : Payload
  event : Event
  result : Term
  removed : Bool
  deriving DecidableEq

/-- How `consume_queue` ends. -/
inductive DrainResult where
  | completed
  | ok
  deriving DecidableEq

/-- What `consume_queue` returns, the queue it leaves and the attempts it made. -/
structure Drain where
  result : DrainResult
  queue : List Payload
  attempts : List Attempt

/-- `@max_queue_process_msg` -/
def maxQueueProcessMsg : ℕ := 5000

/-- `consume_queue`. What librdkafka answers to the `i`-th attempt is `answers i`. -/
def consumeQueue (clientRef : Term) : ℕ → List Payload → (ℕ → Answer) → Drain
  | 0, q, _ => ⟨.ok, q, []⟩
  | n + 1, q, answers =>
    match LocalQueue.head q with
    | none => ⟨.completed, q, []⟩
    | some msg =>
      let event := decodeQueuedMessage msg
      let result := (enifProduce clientRef event (answers 0)).result
      if result = Term.ok then
        let d := consumeQueue clientRef n (LocalQueue.deq q) fun i => answers (i + 1)
        { d with attempts := ⟨msg, event, result, true⟩ :: d.attempts }
      else if result = queueFullAtom then
        ⟨.ok, q, [⟨msg, event, result, false⟩]⟩
      else
        -- the message is skipped because of the error
        let d := consumeQueue clientRef n (LocalQueue.deq q) fun i => answers (i + 1)
        { d with attempts := ⟨msg, event, result, true⟩ :: d.attempts }

/-! ## The callbacks -/

/-- The state of the process. -/
structure State where
  clientId : String
  ref : Term
  callback : Term
  statsCb : Term
  overflowMethod : Term
  pqueue : List Payload
  pqueueSch : Bool

/-- What the process does besides changing its state. -/
inductive Effect where
  /-- `ExrdkafkaNif.producer_set_owner` -/
  | setOwner (ref : Term)
  /-- `CacheClient.set` -/
  | cacheSet (clientId : String) (ref : Term)
  /-- `Process.send_after(self(), :consume_queue, timeout)` -/
  | sendAfter (timeout : ℕ)
  /-- a produce call of the drain -/
  | attempt (a : Attempt)
  /-- a call of the delivery report callback -/
  | deliveryReport (status message : Term)
  deriving DecidableEq

/-- `:local_disk_queue` -/
def localDiskQueue : Term := .atom "local_disk_queue"

/-- `schedule_consume_queue/2`: a drain that is already scheduled is not scheduled again. -/
def scheduleConsumeQueue (scheduled : Bool) (timeout : ℕ) : List Effect :=
  if scheduled then [] else [.sendAfter timeout]

/-- `init`. `localQueue` is what `LocalQueue.new` opens: the content found on disk, or a failure. -/
def init (clientId : String) (drCallback : Term) (config : List (Term × Term)) (ref : Term)
    (localQueue : Option (List Payload)) : Handled State Term Effect :=
  let overflowStrategy :=
    Utils.lookup (.atom "queue_buffering_overflow_strategy") config localDiskQueue
  let statsCallback := Utils.lookup (.atom "stats_callback") config
  let registered : List Effect := [.setOwner ref, .cacheSet clientId ref]
  match localQueue with
  | none => .raise registered
  | some q =>
    let scheduled := if overflowStrategy = localDiskQueue then [Effect.sendAfter 0] else []
    .noreply ⟨clientId, ref, drCallback, statsCallback, overflowStrategy, q, true⟩
      (registered ++ scheduled)

/-- The calls. -/
inductive Request where
  | queueEvent (e : Event)
  | getStats
  | other (request : Term)

/-- `handle_call` -/
def handleCall (s : State) : Request → Handled State Term Effect
  | .queueEvent e =>
    if s.overflowMethod = localDiskQueue then
      .reply Term.ok { s with pqueue := LocalQueue.enq s.pqueue e, pqueueSch := true }
        (scheduleConsumeQueue s.pqueueSch 1000)
    else .reply s.overflowMethod s []
  -- the state map has no key `:stats`
  | .getStats => .raise []
  | .other _ => .reply Term.ok s []

/-- The messages. With `:consume_queue` come librdkafka's answers to the attempts of the drain. -/
inductive Info where
  | consumeQueue (answers : ℕ → Answer)
  | deliveryReport (status message : Term)
  | stats (stats : Term)
  | other (info : Term)

/-- `call_callback` -/
def callCallback (callback status message : Term) : List Effect :=
  if callback = .undefined then [] else [.deliveryReport status message]

/-- `handle_info` -/
def handleInfo (s : State) : Info → Handled State Term Effect
  | .consumeQueue answers =>
    let d := consumeQueue s.ref maxQueueProcessMsg s.pqueue answers
    match d.result with
    | .completed =>
      .noreply { s with pqueue := d.queue, pqueueSch := false } (d.attempts.map .attempt)
    | .ok =>
      .noreply { s with pqueue := d.queue, pqueueSch := true }
        (d.attempts.map .attempt ++ [.sendAfter 1000])
  | .deliveryReport status message => .noreply s (callCallback s.callback status message)
  -- `%{state | stats: stats}` on a map without the key `:stats`
  | .stats _ => .raise []
  | .other _ => .noreply s []

/-- What the process can be sent. -/
inductive Message where
  | call (r : Request)
  | info (m : Info)

/-- The callback a message is handled by. -/
def handle (s : State) : Message → Handled State Term Effect
  | .call r => handleCall s r
  | .info m => handleInfo s m

end Exrdkafka.Producer
