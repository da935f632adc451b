import Exrdkafka.ConsumerGroup.History
import Exrdkafka.Nif.Rebalance

/-!
# A member of a consumer group

Four parties work on the partitions of a member: librdkafka, which calls `rebalance_cb`; the NIF
with the queue manager; `Exrdkafka.ConsumerGroup`, which gets the messages of the callback in its
mailbox; and the consumers it starts, which poll the partition queues.

`Member.step` interleaves them. Handling a message decides what the group does next, its `pending`
effects, which it performs one by one; between any two of them librdkafka may call the callback
again, a message may arrive, a consumer may end, and the Erlang machine may free a queue resource
that nothing refers to. Nothing is assumed here of the order in which librdkafka calls the callback.

A consumer that has answered to `Consumer.stop` does not poll any more. When it has not answered in
time, `Consumer.stop` sends it an exit signal and returns: such a consumer may go on for a while.
-/

namespace Exrdkafka.ConsumerGroup

open Nif

/-! ## Messages of the callback -/

/-- `{topic_name, partition, offset, queue_ref}` -/
def Assigned.ofTerm : Term → Option Assigned
  | .tuple [.binary topicName, .int partition, .int offset, queueRef] =>
    some { topicName, partition, offset, queueRef }
  | _ => none

/-- `{topic_name, partition}` -/
def topicPartitionOfTerm : Term → Option TopicPartition
  | .tuple [.binary topicName, .int partition] => some (topicName, partition)
  | _ => none

/-- What is in the mailbox of the group. -/
inductive Mail where
  | assignPartitions (partitions : List Assigned)
  | revokePartitions (partitions : List TopicPartition)
  | stats (decoded : Term)
  | exit (sender : Pid) (reason : Term)
  | other (info : Term)

/-- The messages of the rebalance callback. -/
def Mail.isRebalance : Mail → Bool
  | .assignPartitions _ | .revokePartitions _ => true
  | _ => false

/-- A message of the rebalance callback, as `handle_info` matches it. -/
def Mail.ofTerm : Term → Option Mail
  | .tuple [.atom tag, list] =>
    if tag = "assign_partitions" then
      (list.toList?.bind fun items => items.mapM Assigned.ofTerm).map .assignPartitions
    else if tag = "revoke_partitions" then
      (list.toList?.bind fun items => items.mapM topicPartitionOfTerm).map .revokePartitions
    else none
  | _ => none

/-- The message, with the answers of the callback modules for the consumers it starts. -/
def Mail.answered (answers : List Consumer.InitAnswer) : Mail → Option Info
  | .assignPartitions ps =>
    if answers.length = ps.length then some (.assignPartitions (ps.zip answers)) else none
  | .revokePartitions tps => some (.revokePartitions tps)
  | .stats decoded => some (.stats decoded)
  | .exit sender reason => some (.exit sender reason)
  | .other info => some (.other info)

/-- The queues that a message refers to. -/
def Mail.queueRefs : Mail → List Term
  | .assignPartitions ps => ps.map (·.queueRef)
  | _ => []

/-- The queue that an effect still to come refers to. -/
def Effect.queueRef? : Effect → Option Term
  | .started _ e => some e.queueRef
  | .queueCleanup queueRef => some queueRef
  | _ => none

/-! ## The member -/

/-- What the coordinator of the group has given the member. -/
inductive Grant where
  | unassigned
  | granted (tps : List TopicPartition)
  /-- from the callback for a revocation until `rd_kafka_assign(NULL)` -/
  | revoking (tps : List TopicPartition)
  deriving DecidableEq

/-- The partitions of a grant. -/
def Grant.tps : Grant → List TopicPartition
  | .unassigned => []
  | .granted tps | .revoking tps => tps

/-- A member. -/
structure Member where
  grant : Grant
  consumer : EnifConsumer
  mailbox : List Mail
  group : World
  /-- what the group has done of its history -/
  done : List Effect
  /-- what it is about to do -/
  pending : List Effect
  /-- the consumers that have ended by themselves -/
  ended : List Pid
  /-- the consumers that `Consumer.stop` has sent a signal to, without waiting for their end -/
  killed : List Pid
  /-- the group process has exited -/
  gone : Bool

/-- What can happen. -/
inductive MemberEvent where
  /-- librdkafka calls `rebalance_cb`, in which `rd_kafka_assign` returns `response` -/
  | rebalance (err : ℤ) (partitions : RdPartitionList) (response : ℤ)
  /-- another message arrives -/
  | arrive (mail : Mail)
  /-- the group takes the first message -/
  | handle (answers : List Consumer.InitAnswer)
  /-- the supervisor stops the group -/
  | shutdown
  /-- the group performs its next effect -/
  | effect
  /-- the next effect is a stop, and the consumer does not answer in time -/
  | timeout
  /-- a consumer ends, by itself or by the signal -/
  | die (pid : Pid)
  /-- `cleanup_consumer` runs `clear_all` -/
  | clearAll
  /-- the group process exits, after `terminate` -/
  | exit
  /-- a queue resource is freed -/
  | free (r : ℕ)

namespace Member

/-- A member that has joined, with a group process that has been started. -/
def start (s : State) : Member where
  grant := .unassigned
  consumer := ⟨true, .start⟩
  mailbox := []
  group := .start s
  done := []
  pending := []
  ended := []
  killed := []
  gone := false

/-- The consumers that run and have not been stopped. -/
def active (m : Member) : List (TopicPartition × Entry) :=
  (liveIn m.done).filter fun c => c.2.pid ∉ m.ended

/-- The consumers whose stop has timed out and that still run. -/
def lingering (m : Member) : List (TopicPartition × Entry) :=
  (startedIn m.done).filter fun c => c.2.pid ∈ m.killed ∧ c.2.pid ∉ m.ended

/-- The consumers that run. -/
def live (m : Member) : List (TopicPartition × Entry) := m.active ++ m.lingering

/-- The queue resources that processes refer to. -/
def heldRefs (m : Member) : List Term :=
  m.live.map (·.2.queueRef) ++ m.pending.filterMap Effect.queueRef? ++
    if m.gone then []
    else m.mailbox.flatMap Mail.queueRefs ++ (values m.group.state.activeTopicsMap).map (·.queueRef)

/-- The partitions of a list of librdkafka. -/
def keys (partitions : RdPartitionList) : List TopicPartition :=
  (partitions.getD []).map fun obj => (cStr obj.topic, obj.partition)

/-- One call made in the callback. What is sent to a process that has exited is lost. -/
def called (m : Member) : RebalanceCall → Option Member
  | .assign none => some { m with grant := .unassigned }
  | .assign (some _) => some m
  | .log _ _ => some m
  | .send message =>
    if m.gone then some m
    else (Mail.ofTerm message).map fun mail => { m with mailbox := m.mailbox ++ [mail] }

/-- librdkafka calls `rebalance_cb`. -/
def rebalance (m : Member) (err : ℤ) (partitions : RdPartitionList) (response : ℤ) :
    Option Member :=
  let (consumer, calls) := m.consumer.rebalanceCb err partitions response
  let grant := if err = respErrAssignPartitions then Grant.granted (keys partitions)
    else .revoking (keys partitions)
  calls.foldlM called { m with grant, consumer }

/-- What the callback of the group returned decides what it does next. -/
def handled (m : Member) (r : GenServer.Handled State (List Term) Effect) : Member :=
  let group := m.group.handled r
  { m with group, pending := group.history.drop m.group.history.length }

/-- What an effect of the group does to the others. -/
def perform (m : Member) : Effect → Member
  | .queueCleanup (.ref r) =>
    { m with consumer := { m.consumer with queues := m.consumer.queues.queueCleanup r } }
  | .partitionRevokeCompleted => { m with grant := .unassigned }
  | .consumerCleanup => { m with consumer := { m.consumer with running := false } }
  | _ => m

/-- An effect has been performed. -/
def performed (m : Member) (e : Effect) (rest : List Effect) (killed : List Pid) : Member :=
  { m.perform e with done := m.done ++ [e], pending := rest, killed }

/-- One step. -/
def step (m : Member) : MemberEvent → Option Member
  | .rebalance err partitions response => m.rebalance err partitions response
  | .arrive mail =>
    if mail.isRebalance ∨ m.gone then none else some { m with mailbox := m.mailbox ++ [mail] }
  | .handle answers =>
    match m.mailbox with
    | [] => none
    | mail :: rest =>
      if m.group.running ∧ m.pending = [] then
        (mail.answered answers).map fun info =>
          { m with mailbox := rest }.handled (handleInfo m.group.next m.group.state info)
      else none
  | .shutdown =>
    if m.group.running ∧ m.pending = [] then some (m.handled (.stop m.group.state [])) else none
  | .effect =>
    match m.pending with
    | [] => none
    | e :: rest => some (m.performed e rest (m.killed.filter fun pid => e ≠ .stop pid))
  | .timeout =>
    match m.pending with
    | .stop pid :: rest =>
      if pid ∈ m.live.map (·.2.pid) then some (m.performed (.stop pid) rest (pid :: m.killed))
      else none
    | _ => none
  | .die pid =>
    if pid ∈ m.live.map (·.2.pid) then some { m with ended := m.ended ++ [pid] } else none
  | .clearAll =>
    if m.consumer.running then none
    else some { m with consumer := { m.consumer with queues := m.consumer.queues.clearAll } }
  | .exit =>
    if m.group.running = false ∧ m.pending = [] then some { m with gone := true, mailbox := [] }
    else none
  | .free r =>
    if r < m.consumer.queues.next ∧ r ∉ m.consumer.queues.freed ∧ .ref r ∉ m.heldRefs then
      some { m with consumer := { m.consumer with queues := m.consumer.queues.queueFree r } }
    else none

end Member

end Exrdkafka.ConsumerGroup
