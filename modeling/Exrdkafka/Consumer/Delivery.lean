import Exrdkafka.Consumer.CommitSafety
import Exrdkafka.Foundations.OffsetLog
import Exrdkafka.Nif.PartitionQueue

/-!
# A partition and its consumers

The broker keeps the log of a partition and the offset that the group has committed. Whenever the
partition is assigned to a member of the group, librdkafka fetches the log from that offset on,
`Exrdkafka.Consumer` takes the messages from the partition queue and stores the offsets of those it
has handled, and librdkafka commits the offset after the one stored last. A session may end at any
point: the partition is revoked, the process crashes or is killed, the member dies. It is over when
its process has ended, and the next one begins after that.

`assign_partitions` calls `rd_kafka_assign` before `enif_new_queue` takes the partition queue off
the main queue. What librdkafka fetches in between comes on the main queue, where the dispatcher
destroys it: such a record is diverted.

`Delivery.step` is the partition with its log, its sessions and the consumer process, in any
interleaving.
-/

namespace Exrdkafka.Nif

/-! ## Storing an offset -/

/-- A call of `rd_kafka_offset_store`. -/
structure OffsetStoreCall where
  topic : List UInt8
  partition : ℤ
  offset : ℤ
  deriving DecidableEq

/-- `enif_consumer_offset_store`: the call it makes, which returns `err`, and its result. For an
error the code itself stands in the tuple, in the place of a term; that result is `none`. -/
def enifConsumerOffsetStore (clientRef topicName partition offset : Term) (err : ℤ) :
    Option OffsetStoreCall × Option Term :=
  match getResource clientRef, getString topicName, getInt partition, getInt64 offset with
  | some _, some topicName, some partition, some offset =>
    (some ⟨cStr topicName, partition, offset⟩, if err = 0 then some Term.ok else none)
  | _, _, _, _ => (none, some makeBadarg)

/-- The call is made with the values of the arguments. -/
theorem enifConsumerOffsetStore_call {clientRef : Term} {t : List UInt8} {p o err : ℤ}
    {call : OffsetStoreCall}
    (h : (enifConsumerOffsetStore clientRef (.binary t) (.int p) (.int o) err).1 = some call) :
    call = ⟨cStr t, p, o⟩ := by
  unfold enifConsumerOffsetStore at h
  split at h
  · next hname hp ho =>
    simp only [getInt, getInt64, Option.ite_none_right_eq_some, Option.some.injEq] at hp ho
    obtain rfl := Option.some.inj hname
    obtain ⟨-, rfl⟩ := hp
    obtain ⟨-, rfl⟩ := ho
    exact (Option.some.inj h).symm
  · cases h

end Exrdkafka.Nif

namespace Exrdkafka.Consumer

open Nif OffsetLog Machine

/-! ## Sessions -/

/-- The offset store that the process is about to call. -/
def Ctl.store : Ctl → Option BatchOffset
  | .commitOffset h _ _ => some (h.topic, h.partition, h.offset)
  | .storeBatch last _ => some last
  | _ => none

/-- Steps of a consumer that neither read the queue nor store an offset. -/
def Label.local : Label → Bool
  | .polled _ | .stored _ => false
  | _ => true

/-- An assignment of the partition, until it is revoked or its member dies. -/
structure Session where
  /-- where librdkafka begins to fetch -/
  position : ℤ
  /-- the number of records fetched -/
  fetched : ℕ
  /-- the partition queue is off the main queue -/
  detached : Bool
  queue : List FetchEvent
  /-- the records that came on the main queue -/
  diverted : List RdMessage
  /-- the offset stored last -/
  stored : Option ℤ
  /-- the consumer process, once it has started -/
  world : Option World

namespace Session

/-- `rd_kafka_assign`, with the offset to begin at. -/
def start (position : ℤ) : Session := ⟨position, 0, false, [], [], none, none⟩

/-- What the consumer process has done. -/
def trace (s : Session) : List Call := s.world.elim [] World.trace

/-- librdkafka fetches the next record. -/
def fetch (s : Session) (log : Log RdMessage.offset) : Option Session :=
  (log.since s.position)[s.fetched]?.map fun msg =>
    if s.detached then { s with fetched := s.fetched + 1, queue := s.queue ++ [[msg]] }
    else { s with fetched := s.fetched + 1, diverted := s.diverted ++ [msg] }

/-- A step of the consumer process that the session has no part in. -/
def own (s : Session) (l : Label) : Option Session :=
  if l.local then
    s.world.bind fun w => (step w l).map fun w' => { s with world := some w' }
  else none

/-- The consumer process polls the partition queue. -/
def poll (s : Session) : Option Session :=
  s.world.bind fun w => (step w (.polled s.queue)).map fun w' =>
    { s with
      queue := (enifConsumerQueuePoll s.queue w.state.pollBatchSize).elim s.queue Polled.rest
      world := some w' }

/-- What is stored after a call of `rd_kafka_offset_store` that returned `err`. An offset of another
partition is not stored for this one. -/
def kept (topic : List UInt8) (partition : ℤ) (s : Session) (err : ℤ) :
    Option OffsetStoreCall → Option ℤ
  | some call =>
    if call.topic = topic ∧ call.partition = partition ∧ err = 0 then some call.offset else s.stored
  | none => s.stored

/-- The consumer process stores an offset. -/
def store (topic : List UInt8) (partition : ℤ) (s : Session) (err : ℤ) : Option Session :=
  s.world.bind fun w => w.ctl.store.bind fun (t, p, o) =>
    let r := enifConsumerOffsetStore w.state.clientRef (.binary t) (.int p) (.int o) err
    (step w (.stored (r.2 = some Term.ok))).map fun w' =>
      { s with stored := s.kept topic partition err r.1, world := some w' }

end Session

/-! ## The partition -/

/-- A partition. The commit is kept with the offset at which the first session to commit began. -/
structure Delivery where
  log : Log RdMessage.offset
  committed : Option Commit
  session : Option Session
  /-- the messages acknowledged in the sessions that have ended -/
  acked : List Message
  /-- the records diverted in the sessions that have ended -/
  diverted : List RdMessage

/-- What can happen. -/
inductive DeliveryEvent where
  /-- the broker appends a record to the log -/
  | produce (msg : RdMessage)
  /-- `rd_kafka_assign`; without a commit librdkafka begins at `reset` -/
  | assign (reset : ℤ)
  /-- `rd_kafka_queue_forward(queue, NULL)` in `enif_new_queue` -/
  | detach
  | fetch
  /-- an event without messages comes on the partition queue -/
  | otherEvent
  /-- `Consumer.start_link` by the consumer group, which got the queue in its message -/
  | start (clientRef queueRef : Term) (topicSettings : Option (List (Term × Term)))
      (answer : InitAnswer)
  | own (l : Label)
  | poll
  | store (err : ℤ)
  /-- librdkafka commits -/
  | commit
  /-- the session ends -/
  | finish

namespace Delivery

/-- The messages acknowledged in all sessions. -/
def allAcked (d : Delivery) : List Message := d.acked ++ d.session.elim [] fun s => ackedIn s.trace

/-- The records diverted in all sessions. -/
def allDiverted (d : Delivery) : List RdMessage := d.diverted ++ d.session.elim [] Session.diverted

/-- The session changes. -/
def withSession (d : Delivery) (f : Session → Option Session) : Option Delivery :=
  d.session.bind fun s => (f s).map fun s' => { d with session := some s' }

/-- An empty partition. -/
def start : Delivery := ⟨.empty, none, none, [], []⟩

/-- The offset after the one stored last is committed. -/
def commit (d : Delivery) (s : Session) : Option Delivery :=
  s.stored.map fun o =>
    { d with committed := some ⟨d.committed.elim s.position Commit.base, o + 1⟩ }

/-- One step. -/
def step (topic : List UInt8) (partition : ℤ) (d : Delivery) : DeliveryEvent → Option Delivery
  | .produce msg =>
    if h : Belongs topic partition [msg] ∧ ∀ r ∈ d.log.records, r.offset < msg.offset then
      some { d with log := d.log.append msg h.2 }
    else none
  | .assign reset =>
    match d.session with
    | none => some { d with session := some (.start (d.committed.elim reset Commit.position)) }
    | some _ => none
  | .detach => d.withSession fun s => some { s with detached := true }
  | .fetch => d.withSession fun s => s.fetch d.log
  | .otherEvent => d.withSession fun s =>
      if s.detached then some { s with queue := s.queue ++ [[]] } else none
  | .start clientRef queueRef topicSettings answer => d.withSession fun s =>
      if s.detached ∧ s.world.isNone then
        match init clientRef (cStr topic) partition queueRef topicSettings answer with
        | .ok st => some { s with world := some (.start st) }
        | .stop _ | .raise => none
      else none
  | .own l => d.withSession fun s => s.own l
  | .poll => d.withSession Session.poll
  | .store err => d.withSession fun s => s.store (cStr topic) partition err
  | .commit => d.session.bind d.commit
  | .finish =>
    d.session.map fun _ =>
      { d with session := none, acked := d.allAcked, diverted := d.allDiverted }

end Delivery

end Exrdkafka.Consumer
