import Mathlib.Logic.Function.Basic
import Exrdkafka.Nif.QueueCallbacksDispatcher

/-!
# Clients and the threads that work on them

Every producer and every consumer owns an instance of librdkafka, which is watched by the
dispatcher until the client is cleaned up or freed. The functions of the library run on many
threads; `ClientOp` lists their operations as far as the life of an instance goes, with each
critical section and each enqueue of the dispatcher as one operation, and `System.step` interleaves
them with the loop of the dispatcher.

Pointers are numbers, and `rd_kafka_new` may return the address of an instance that was destroyed
before. A flush, a close or a destruction of an instance that was destroyed has no defined behaviour
and is not a step. The dispatcher is not held to this: it polls what is in its table.
-/

namespace Exrdkafka.Nif

namespace QueueCallbacksDispatcher

/-! ## The critical sections of the dispatcher -/

/-- The critical section of `watch`. -/
def watchSection (d : QueueCallbacksDispatcher) (obj : ℕ) (isConsumer : Bool)
    (maxPollInterval now : UInt64) : QueueCallbacksDispatcher :=
  { d with objects := d.objects.insert obj ⟨isConsumer, maxPollInterval / 2, now⟩ }

/-- `events_.enqueue` -/
def enqueue (d : QueueCallbacksDispatcher) (event : Option ℕ) : QueueCallbacksDispatcher :=
  { d with events := d.events ++ [event] }

/-- The critical section of `remove` when the instance is found. -/
def removeSection (d : QueueCallbacksDispatcher) (obj : ℕ) : QueueCallbacksDispatcher :=
  { d with objects := d.objects.erase obj }

theorem watch_eq (d : QueueCallbacksDispatcher) (obj : ℕ) (isConsumer : Bool)
    (maxPollInterval now : UInt64) : d.watch obj isConsumer maxPollInterval now =
      (d.watchSection obj isConsumer maxPollInterval now).enqueue none :=
  rfl

theorem remove_eq {d : QueueCallbacksDispatcher} {obj : ℕ} {it : Item}
    (h : d.objects.lookup obj = some it) :
    d.remove obj = ((d.removeSection obj).enqueue none, true) :=
  remove_of_some h

end QueueCallbacksDispatcher

/-! ## Clients -/

/-- `enif_producer` or `enif_consumer`. -/
structure Client where
  isConsumer : Bool
  /-- the instance that `rd_kafka_new` returned -/
  obj : ℕ
  maxPollInterval : UInt64
  /-- the field `kf` is not null -/
  kf : Bool
  /-- the thread of the field `closed_future` -/
  closedFuture : Option ℕ
  /-- the thread that runs `enif_producer_new` or `enif_consumer_new` -/
  creator : ℕ

/-- The value of the field `kf`. -/
def Client.pointer (cl : Client) : Option ℕ := if cl.kf then some cl.obj else none

/-- What the threads do to a client `c` and to the dispatcher. -/
inductive ClientOp where
  /-- the critical section of `watch` -/
  | insert (c : ℕ)
  /-- `events_.enqueue` -/
  | enqueue (event : Option ℕ)
  /-- the critical section of `remove` -/
  | erase (obj : Option ℕ)
  /-- `std::async` of the cleanup of the client -/
  | async (c : ℕ)
  /-- `closed_future->get()` -/
  | get (thread : ℕ)
  /-- `rd_kafka_flush` -/
  | flush (c : ℕ)
  /-- `rd_kafka_consumer_close` -/
  | close (c : ℕ)
  /-- `rd_kafka_destroy` -/
  | destroy (c : ℕ)
  /-- `consumer->kf = nullptr` -/
  | clearKf (c : ℕ)
  deriving DecidableEq

/-- `watch` -/
def watchOps (c : ℕ) : List ClientOp := [.insert c, .enqueue none]

/-- `cleanup_producer` -/
def cleanupProducer (c : ℕ) : List ClientOp := [.flush c]

/-- `cleanup_consumer` -/
def cleanupConsumer (c : ℕ) : List ClientOp := [.close c, .destroy c, .clearKf c]

/-- `enif_producer_new` or `enif_consumer_new`, after `rd_kafka_new`. A consumer that cannot
subscribe is not watched, and its instance is destroyed again. -/
def newOps (isConsumer subscribed : Bool) (c : ℕ) : List ClientOp :=
  if isConsumer && !subscribed then [.destroy c] else watchOps c

/-- `enif_producer_cleanup` or `enif_consumer_cleanup` -/
def Client.cleanupOps (cl : Client) (c : ℕ) : List ClientOp := [.erase cl.pointer, .async c]

/-- The thread that a cleanup starts. -/
def Client.asyncOps (cl : Client) (c : ℕ) : List ClientOp :=
  if cl.isConsumer then cleanupConsumer c else cleanupProducer c

/-- `enif_producer_free` -/
def Client.producerFree (cl : Client) (c : ℕ) : List ClientOp :=
  let destroy : List ClientOp := if cl.kf then [.destroy c] else []
  match cl.closedFuture with
  | some thread => .get thread :: destroy
  | none => (if cl.kf then .erase cl.pointer :: cleanupProducer c else []) ++ destroy

/-- `enif_consumer_free` -/
def Client.consumerFree (cl : Client) (c : ℕ) : List ClientOp :=
  match cl.closedFuture with
  | some thread => [.get thread]
  | none => if cl.kf then .erase cl.pointer :: cleanupConsumer c else []

/-- The destructor of the resource. -/
def Client.freeOps (cl : Client) (c : ℕ) : List ClientOp :=
  if cl.isConsumer then cl.consumerFree c else cl.producerFree c

/-! ## What happens to instances -/

/-- What has happened to the instance at an address. -/
inductive LifeNote where
  /-- `rd_kafka_new` -/
  | created (obj : ℕ)
  /-- `watch` has inserted it -/
  | inserted (obj : ℕ) (isConsumer : Bool)
  /-- `remove` has erased it -/
  | erased (obj : ℕ)
  /-- the dispatcher has polled it -/
  | polled (call : PollCall)
  | flushed (obj : ℕ)
  | closed (obj : ℕ)
  | destroyed (obj : ℕ)
  deriving DecidableEq

/-- The address. -/
def LifeNote.obj : LifeNote → ℕ
  | .created obj | .inserted obj _ | .erased obj => obj
  | .flushed obj | .closed obj | .destroyed obj => obj
  | .polled call => call.obj

/-! ## The system -/

/-- The dispatcher, the clients and the threads. -/
structure System where
  dispatcher : QueueCallbacksDispatcher
  /-- the event that the dispatcher has taken off its queue, null for a wait that timed out -/
  taken : Option (Option ℕ)
  /-- the client of the instance at an address -/
  instances : ℕ → Option ℕ
  clients : ℕ → Option Client
  /-- what is left to do for each thread -/
  threads : ℕ → List ClientOp
  nextThread : ℕ
  history : List LifeNote

/-- What can happen. -/
inductive SystemEvent where
  /-- `enif_producer_new` or `enif_consumer_new` is called, and `rd_kafka_new` returns `obj` -/
  | new (c : ℕ) (isConsumer : Bool) (obj : ℕ) (maxPollInterval : UInt64) (subscribed : Bool)
  /-- `enif_producer_cleanup` or `enif_consumer_cleanup` is called -/
  | cleanup (c : ℕ)
  /-- the resource is freed -/
  | free (c : ℕ)
  /-- `signal` is called -/
  | signal (obj : ℕ)
  /-- `remove` is called -/
  | remove (obj : ℕ)
  /-- a thread takes a step -/
  | run (thread : ℕ) (now : UInt64)
  /-- the dispatcher takes an event off its queue -/
  | dequeue
  /-- the wait of the dispatcher times out -/
  | timeOut
  /-- the critical section of the loop of the dispatcher -/
  | process (now : UInt64)

namespace System

/-- The system when the library has been loaded. -/
def start : System := ⟨.init, none, fun _ => none, fun _ => none, fun _ => [], 0, []⟩

/-- A thread starts. -/
def spawn (s : System) (ops : List ClientOp) : System :=
  { s with
    threads := Function.update s.threads s.nextThread ops
    nextThread := s.nextThread + 1 }

/-- What is left to do for a thread. -/
def advance (s : System) (thread : ℕ) (ops : List ClientOp) : System :=
  { s with threads := Function.update s.threads thread ops }

def note (s : System) (n : LifeNote) : System := { s with history := s.history ++ [n] }

/-- A thread uses the instance of a client, which must not have been destroyed. -/
def use (s : System) (c : ℕ) (n : ℕ → LifeNote) : Option System :=
  (s.clients c).bind fun cl =>
    if s.instances cl.obj = some c then some (s.note (n cl.obj)) else none

/-- `rd_kafka_destroy` -/
def destroy (s : System) (c : ℕ) : Option System :=
  (s.clients c).bind fun cl =>
    if s.instances cl.obj = some c then
      some { s.note (.destroyed cl.obj) with
        instances := Function.update s.instances cl.obj none }
    else none

/-- A thread takes the operation `op`, and `rest` is left. -/
def runOp (s : System) (thread : ℕ) (rest : List ClientOp) (now : UInt64) :
    ClientOp → Option System
  | .insert c =>
    (s.clients c).map fun cl =>
      { (s.advance thread rest).note (.inserted cl.obj cl.isConsumer) with
        dispatcher := s.dispatcher.watchSection cl.obj cl.isConsumer cl.maxPollInterval now }
  | .enqueue event => some { s.advance thread rest with dispatcher := s.dispatcher.enqueue event }
  | .erase none => some (s.advance thread rest)
  | .erase (some obj) =>
    match s.dispatcher.objects.lookup obj with
    | none => some (s.advance thread rest)
    | some _ =>
      some { (s.advance thread (.enqueue none :: rest)).note (.erased obj) with
        dispatcher := s.dispatcher.removeSection obj }
  | .async c =>
    (s.clients c).map fun cl =>
      let started := (s.advance thread rest).spawn (cl.asyncOps c)
      { started with
        clients := Function.update s.clients c
          (some { cl with closedFuture := some s.nextThread }) }
  | .get t => if s.threads t = [] then some (s.advance thread rest) else none
  | .flush c => (s.advance thread rest).use c .flushed
  | .close c => (s.advance thread rest).use c .closed
  | .destroy c => (s.advance thread rest).destroy c
  | .clearKf c =>
    (s.clients c).map fun cl =>
      { s.advance thread rest with
        clients := Function.update s.clients c (some { cl with kf := false }) }

/-- One step. A client may be cleaned up and freed at any time after it has been created, any number
of times. -/
def step (s : System) : SystemEvent → Option System
  | .new c isConsumer obj maxPollInterval subscribed =>
    if s.clients c = none ∧ s.instances obj = none then
      let created := (s.spawn (newOps isConsumer subscribed c)).note (.created obj)
      some { created with
        instances := Function.update s.instances obj (some c)
        clients := Function.update s.clients c (some
          { isConsumer, obj, maxPollInterval
            kf := !isConsumer || subscribed
            closedFuture := none
            creator := s.nextThread }) }
    else none
  | .cleanup c =>
    (s.clients c).bind fun cl =>
      if s.threads cl.creator = [] then some (s.spawn (cl.cleanupOps c)) else none
  | .free c =>
    (s.clients c).bind fun cl =>
      if s.threads cl.creator = [] then some (s.spawn (cl.freeOps c)) else none
  | .signal obj => some { s with dispatcher := s.dispatcher.signal obj }
  | .remove obj => some (s.spawn [.erase (some obj)])
  | .run thread now =>
    match s.threads thread with
    | [] => none
    | op :: rest => s.runOp thread rest now op
  | .dequeue =>
    match s.taken, s.dispatcher.events with
    | none, event :: events =>
      some { s with
        taken := some event
        dispatcher := { s.dispatcher with events } }
    | _, _ => none
  | .timeOut =>
    if s.taken = none ∧ 0 ≤ s.dispatcher.pollTimeout then some { s with taken := some none }
    else none
  | .process now =>
    s.taken.map fun event =>
      let (dispatcher, polls) := s.dispatcher.processCallback now event
      { s with
        dispatcher
        taken := none
        history := s.history ++ polls.map .polled }

end System

end Exrdkafka.Nif
