import Exrdkafka.Nif.QueuePoll
import Exrdkafka.Utils

/-!
# The consumer process

`Exrdkafka.Consumer` polls one partition queue, hands the messages to a callback module and stores
the offsets of those the callback took. It may be stopped between two messages, between the retries
of one message, and whenever it is idle.

The process is a small-step machine. `Ctl` is where it is in its code: one constructor for each
function that is about to make a call the environment answers, with the arguments of that function.
A `Label` is a step of the process with that answer, or something that happens around it: a message
arrives, a timer fires.
-/

namespace Exrdkafka.Consumer

open Nif

/-! ## Starting -/

/-- How messages are handed to the callback. -/
inductive DispatchMode where
  | oneByOne
  | batch
  deriving DecidableEq

/-- The state of the process. -/
structure State where
  clientRef : Term
  topicName : List UInt8
  partition : ℤ
  queueRef : Term
  cbModule : Term
  cbState : Term
  pollBatchSize : Term
  pollIdleMs : Term
  dispatchMode : DispatchMode
  messages : List Message
  lastOffset : ℤ

/-- What `init` of the callback module returns. -/
inductive InitAnswer where
  | ok (cbState : Term)
  | other (error : Term)
  | raise

/-- What `init` of the process comes to. -/
inductive InitResult where
  | ok (s : State)
  | stop (error : Term)
  | raise

/-- `Keyword.get/3` -/
def keywordGet (settings : List (Term × Term)) (key : String) (default : Term) : Term :=
  Utils.lookup (.atom key) settings default

/-- `dispatch_mode_parse`; `none` when no clause matches. -/
def dispatchModeParse : Term → Option (DispatchMode × Term)
  | .tuple [.atom mode, maxBatchSize] =>
    if mode = "batch" then some (.batch, maxBatchSize) else none
  | .atom mode => if mode = "one_by_one" then some (.oneByOne, .int 100) else none
  | _ => none

/-- `init`. The settings are `nil` for a topic without settings. -/
def init (clientRef : Term) (topicName : List UInt8) (partition : ℤ) (queueRef : Term)
    (topicSettings : Option (List (Term × Term))) (answer : InitAnswer) : InitResult :=
  match topicSettings with
  | none => .raise
  | some settings =>
    match answer with
    | .raise => .raise
    | .other error => .stop error
    | .ok cbState =>
      match dispatchModeParse (keywordGet settings "dispatch_mode" (.atom "one_by_one")) with
      | none => .raise
      | some (mode, pollBatchSize) => .ok
        { clientRef, topicName, partition, queueRef, cbState, pollBatchSize
          cbModule := keywordGet settings "callback_module" (.atom "nil")
          pollIdleMs := keywordGet settings "poll_idle_ms" (.int 1000)
          dispatchMode := mode
          messages := []
          lastOffset := -1 }

/-! ## Messages, calls and control -/

/-- The messages the process sends itself. -/
inductive SelfMsg where
  | pollEvents
  | processMessages
  deriving DecidableEq

/-- What is in the mailbox. -/
inductive Mail where
  | self (m : SelfMsg)
  /-- `{:stop, from, tag}` -/
  | stop (sender tag : ℕ)
  /-- any other tuple of three elements, such as a call or a system message -/
  | triple (t : Term)
  /-- anything else -/
  | other (t : Term)
  deriving DecidableEq

/-- What `handle_message` of the callback module returns. -/
inductive Answer where
  | ok (cbState : Term)
  | error (reason cbState : Term)
  | other (t : Term)
  deriving DecidableEq

/-- The calls the process makes. -/
inductive Call where
  | poll (messages : List Message)
  | handleMessage (messages : List Message) (cbState : Term) (a : Answer)
  | offsetStore (topic : List UInt8) (partition offset : ℤ)
  | sleep (ms : ℕ)
  | stopped (sender tag : ℕ)
  deriving DecidableEq

/-- Why the process ended. -/
inductive ExitReason where
  | normal
  | unexpected (m : Mail)
  | badPoll
  | badMatch
  | killed
  deriving DecidableEq

/-- The offset a batch is stored with: topic, partition and last offset. -/
abbrev BatchOffset := List UInt8 × ℤ × ℤ

/-- Where the process is in its code. -/
inductive Ctl where
  /-- waiting for a message -/
  | loop
  /-- `handle_info(:poll_events)`, at the poll -/
  | pollEvents
  /-- `process_events_one_by_one` -/
  | processEventsOneByOne (msgs : List Message) (backoff : ℕ) (cbState : Term)
  /-- `handle_message`, at the callback -/
  | handleMessage (h : Message) (t : List Message) (backoff : ℕ) (cbState : Term)
  /-- `handle_message` after `{:ok, cb_state}`, at `commit_offset` -/
  | commitOffset (h : Message) (t : List Message) (cbState : Term)
  /-- `process_events_batch`, at the callback -/
  | processEventsBatch (msgs : List Message) (last : BatchOffset) (backoff : ℕ) (cbState : Term)
  /-- `process_events_batch` after `{:ok, cb_state}`, at the offset store -/
  | storeBatch (last : BatchOffset) (cbState : Term)
  /-- `handle_backoff_or_stop` -/
  | handleBackoffOrStop (msgs : List Message) (last : BatchOffset) (backoff : ℕ) (cbState : Term)
  /-- asleep in `exponential_backoff` -/
  | sleeping (ms : ℕ) (next : Ctl)
  | terminated (reason : ExitReason)
  deriving DecidableEq

/-- The process with its mailbox, its timers and the calls it has made, in order. -/
structure World where
  state : State
  ctl : Ctl
  mailbox : List Mail
  timers : List SelfMsg
  trace : List Call

namespace World

/-- The process goes on at `ctl`. -/
def goto (w : World) (ctl : Ctl) : World := { w with ctl }

/-- The process has made a call. -/
def call (w : World) (c : Call) : World := { w with trace := w.trace ++ [c] }

/-- `Process.send_after(self(), m, _)` -/
def schedule (w : World) (m : SelfMsg) : World := { w with timers := w.timers ++ [m] }

/-- A process whose `init` succeeded, with its first poll scheduled. -/
def start (s : State) : World := ⟨s, .loop, [], [.pollEvents], []⟩

end World

/-! ## Receiving a stop -/

/-- Tuples of three elements, the pattern of `recv_stop`. -/
def Mail.isTriple : Mail → Bool
  | .stop _ _ | .triple _ => true
  | _ => false

/-- `recv_stop`: the first tuple of three elements is taken out of the mailbox. -/
def recvStop : List Mail → Option (Mail × List Mail)
  | [] => none
  | m :: ms =>
    if m.isTriple then some (m, ms) else (recvStop ms).map fun (x, rest) => (x, m :: rest)

/-- `handle_stop`, then `{:stop, :normal, state}`. -/
def handleStop (w : World) (sender tag : ℕ) : World :=
  (w.call (.stopped sender tag)).goto (.terminated .normal)

/-- `handle_info(:process_messages)` when `process_events` returns what `recv_stop` took. -/
def interrupted (w : World) : Mail → World
  | .stop sender tag => handleStop w sender tag
  | m => w.goto (.terminated (.unexpected m))

/-! ## Processing messages -/

/-- `exponential_backoff`: how long it sleeps, and the next back-off. -/
def exponentialBackoff (backoff : ℕ) : ℕ × ℕ :=
  if backoff = 0 then (0, 500) else if backoff = 4000 then (4000, 4000) else (backoff, backoff * 2)

/-- Sleeping for the back-off before going on. -/
def sleepThen (ms : ℕ) (next : Ctl) : Ctl := if ms = 0 then next else .sleeping ms next

/-- Retrying a list of messages one by one, after the back-off. -/
def retryOneByOne (msgs : List Message) (backoff : ℕ) (cbState : Term) : Ctl :=
  sleepThen (exponentialBackoff backoff).1
    (.processEventsOneByOne msgs (exponentialBackoff backoff).2 cbState)

/-- Retrying a batch, after the back-off. -/
def retryBatch (msgs : List Message) (last : BatchOffset) (backoff : ℕ) (cbState : Term) : Ctl :=
  sleepThen (exponentialBackoff backoff).1
    (.processEventsBatch msgs last (exponentialBackoff backoff).2 cbState)

/-- `handle_info(:process_messages)` when `process_events` returns `{:ok, cb_state}`. -/
def finish (w : World) (cbState : Term) : World :=
  { (w.schedule .pollEvents).goto .loop with
    state := { w.state with messages := [], lastOffset := -1, cbState } }

/-- `process_events` and `batch_offset`: where the processing of the messages starts. -/
def processEvents (s : State) : Ctl :=
  match s.dispatchMode with
  | .oneByOne => .processEventsOneByOne s.messages 0 s.cbState
  | .batch =>
    .processEventsBatch s.messages (s.topicName, s.partition, s.lastOffset) 0 s.cbState

/-- A message is taken from the mailbox by the server loop. Calls, casts and unknown messages leave
the state unchanged. -/
def receive (w : World) : Mail → World
  | .self .pollEvents => w.goto .pollEvents
  | .self .processMessages => w.goto (processEvents w.state)
  | .stop sender tag => handleStop w sender tag
  | .triple _ | .other _ => w

/-- `Process.send_after` accepts a timeout. -/
def validTimeout : Term → Bool
  | .int i => decide (0 ≤ i)
  | _ => false

/-- `handle_info(:poll_events)` with the content of the queue. A poll that fails takes nothing. -/
def pollEvents (w : World) (queue : List FetchEvent) : World :=
  match enifConsumerQueuePoll queue w.state.pollBatchSize with
  | none => (w.call (.poll [])).goto (.terminated .badPoll)
  | some p =>
    let w := w.call (.poll p.messages)
    match p.messages with
    | [] =>
      if validTimeout w.state.pollIdleMs then (w.schedule .pollEvents).goto .loop
      else w.goto (.terminated .badMatch)
    | _ =>
      { (w.schedule .processMessages).goto .loop with
        state := { w.state with messages := p.messages, lastOffset := p.lastOffset } }

/-! ## Steps -/

/-- What can happen. -/
inductive Label where
  /-- another process sends a message -/
  | arrive (m : Mail)
  /-- the `i`-th timer fires -/
  | expire (i : ℕ)
  /-- the process takes a step that nothing has to answer -/
  | next
  /-- the poll, with the content of the partition queue -/
  | polled (queue : List FetchEvent)
  /-- the callback returns -/
  | answered (a : Answer)
  /-- `consumer_offset_store` returns `:ok` or an error -/
  | stored (ok : Bool)

/-- Messages of other processes. -/
def Mail.isSelf : Mail → Bool
  | .self _ => true
  | _ => false

/-- A step that nothing has to answer. -/
def internal (w : World) : Option World :=
  match w.ctl with
  | .loop =>
    match w.mailbox with
    | [] => none
    | m :: rest => some (receive { w with mailbox := rest } m)
  | .processEventsOneByOne [] _ cbState => some (finish w cbState)
  | .processEventsOneByOne (h :: t) backoff cbState =>
    match recvStop w.mailbox with
    | none => some (w.goto (.handleMessage h t backoff cbState))
    | some (m, rest) => some (interrupted { w with mailbox := rest } m)
  | .handleBackoffOrStop msgs last backoff cbState =>
    match recvStop w.mailbox with
    | none => some (w.goto (retryBatch msgs last backoff cbState))
    | some (m, rest) => some (interrupted { w with mailbox := rest } m)
  | .sleeping ms next => some ((w.call (.sleep ms)).goto next)
  | _ => none

/-- The callback returns. -/
def answered (w : World) (a : Answer) : Option World :=
  match w.ctl with
  | .handleMessage h t backoff cbState =>
    let w := w.call (.handleMessage [h] cbState a)
    match a with
    | .ok new => some (w.goto (.commitOffset h t new))
    | .error _ new => some (w.goto (retryOneByOne (h :: t) backoff new))
    | .other _ => some (w.goto (retryOneByOne (h :: t) backoff cbState))
  | .processEventsBatch msgs last backoff cbState =>
    let w := w.call (.handleMessage msgs cbState a)
    match a with
    | .ok new => some (w.goto (.storeBatch last new))
    | .error _ new => some (w.goto (.handleBackoffOrStop msgs last backoff new))
    | .other _ => some (w.goto (.handleBackoffOrStop msgs last backoff cbState))
  | _ => none

/-- `consumer_offset_store` is called and returns; an error is a failed match. -/
def stored (w : World) (ok : Bool) : Option World :=
  match w.ctl with
  | .commitOffset h t cbState =>
    let w := w.call (.offsetStore h.topic h.partition h.offset)
    some (w.goto (if ok then .processEventsOneByOne t 0 cbState else .terminated .badMatch))
  | .storeBatch (topic, partition, offset) cbState =>
    let w := w.call (.offsetStore topic partition offset)
    some (if ok then finish w cbState else w.goto (.terminated .badMatch))
  | _ => none

/-- One step of the process or around it. -/
def step (w : World) : Label → Option World
  | .arrive m => if m.isSelf then none else some { w with mailbox := w.mailbox ++ [m] }
  | .expire i =>
    w.timers[i]?.map fun m =>
      { w with timers := w.timers.eraseIdx i, mailbox := w.mailbox ++ [.self m] }
  | .next => internal w
  | .polled queue =>
    match w.ctl with
    | .pollEvents => some (pollEvents w queue)
    | _ => none
  | .answered a => answered w a
  | .stored ok => stored w ok

end Exrdkafka.Consumer
