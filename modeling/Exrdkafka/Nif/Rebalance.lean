import Exrdkafka.Nif.QueueManager
import Exrdkafka.Nif.Utils

/-!
# The rebalance callback

librdkafka calls `rebalance_cb` when partitions are assigned to the consumer or taken from it. The
callback tells the owner of the consumer, in a message with the list of the partitions. For an
assignment it has already called `rd_kafka_assign`, and it takes a queue for each partition off the
main queue, which goes with the message. A revocation is left to the owner, who calls
`consumer_partition_revoke_completed` when it is ready for it. A consumer that is not running any
more gives its partitions back at once.
-/

namespace Exrdkafka.Nif

/-- `rd_kafka_topic_partition_t` -/
structure RdTopicPartition where
  topic : List UInt8
  partition : ℤ
  offset : ℤ
  deriving DecidableEq

/-- `rd_kafka_topic_partition_list_t*`; the null pointer is `none`. -/
abbrev RdPartitionList := Option (List RdTopicPartition)

/-- `RD_KAFKA_RESP_ERR__ASSIGN_PARTITIONS` -/
def respErrAssignPartitions : ℤ := -175

/-- `RD_KAFKA_RESP_ERR__REVOKE_PARTITIONS` -/
def respErrRevokePartitions : ℤ := -174

/-- What is done in a callback. -/
inductive RebalanceCall where
  /-- `rd_kafka_assign` -/
  | assign (partitions : RdPartitionList)
  /-- `log_message` at the level of an error, with the text of the code at its end -/
  | log (message : String) (err : ℤ)
  /-- `enif_send` to the owner -/
  | send (message : Term)

/-- What the callbacks use of an `enif_consumer`. -/
structure EnifConsumer where
  running : Bool
  queues : Queues

/-- The loop of `partition_list_to_nif`: the queues it leaves behind, and the items. -/
def partitionItems (assign : Bool) : Queues → List RdTopicPartition → Queues × List Term
  | queues, [] => (queues, [])
  | queues, obj :: rest =>
    let topic := Term.binary (cStr obj.topic)
    if assign then
      let (queues', items) := partitionItems assign queues.newQueue rest
      (queues', .tuple [topic, .int obj.partition, .int obj.offset, .ref queues.next] :: items)
    else
      let (queues', items) := partitionItems assign queues rest
      (queues', .tuple [topic, .int obj.partition] :: items)

/-- `partition_list_to_nif` -/
def partitionListToNif (queues : Queues) (partitions : RdPartitionList) (assign : Bool) :
    Queues × Term :=
  match partitions with
  | none => (queues, .ofList [])
  | some objs =>
    let (queues', items) := partitionItems assign queues objs
    (queues', .ofList items)

namespace EnifConsumer

/-- `assign_partitions`, in which `rd_kafka_assign` returns `response`. -/
def assignPartitions (c : EnifConsumer) (partitions : RdPartitionList) (response : ℤ) :
    EnifConsumer × List RebalanceCall :=
  if c.running then
    let failed :=
      if response = 0 then [] else [.log "failed to assign the new partitions" response]
    let (queues, list) := partitionListToNif c.queues partitions true
    ({ c with queues },
      .assign partitions :: failed ++ [.send (.tuple [.atom "assign_partitions", list])])
  else (c, [.assign none])

/-- `revoke_partitions` -/
def revokePartitions (c : EnifConsumer) (partitions : RdPartitionList) :
    EnifConsumer × List RebalanceCall :=
  if c.running then
    let (queues, list) := partitionListToNif c.queues partitions false
    ({ c with queues }, [.send (.tuple [.atom "revoke_partitions", list])])
  else (c, [.assign none])

/-- `rebalance_cb`: an error that is neither of the two codes is logged and is a revocation. -/
def rebalanceCb (c : EnifConsumer) (err : ℤ) (partitions : RdPartitionList) (response : ℤ) :
    EnifConsumer × List RebalanceCall :=
  if err = respErrAssignPartitions then c.assignPartitions partitions response
  else if err = respErrRevokePartitions then c.revokePartitions partitions
  else
    let (c', calls) := c.revokePartitions partitions
    (c', .log "rebalance error: " err :: calls)

end EnifConsumer

/-! ## The lists -/

/-- Taking a queue for each of `n` partitions. -/
def Queues.newQueues (s : Queues) : ℕ → Queues
  | 0 => s
  | n + 1 => s.newQueue.newQueues n

@[simp] theorem Queues.next_newQueues (s : Queues) (n : ℕ) : (s.newQueues n).next = s.next + n := by
  induction n generalizing s with
  | zero => rfl
  | succ n ih =>
    rw [newQueues, ih]
    simp only [newQueue]
    omega

@[simp] theorem Queues.freed_newQueues (s : Queues) (n : ℕ) : (s.newQueues n).freed = s.freed := by
  induction n generalizing s with
  | zero => rfl
  | succ n ih => exact ih s.newQueue

@[simp] theorem Queues.cleared_newQueues (s : Queues) (n : ℕ) :
    (s.newQueues n).cleared = s.cleared := by
  induction n generalizing s with
  | zero => rfl
  | succ n ih => exact ih s.newQueue

/-- The resources there were keep their handles, and each new one has its own. -/
theorem Queues.field_newQueues (s : Queues) (n r : ℕ) :
    (s.newQueues n).field r = if s.next ≤ r ∧ r < s.next + n then some r else s.field r := by
  induction n generalizing s with
  | zero => rw [newQueues, if_neg (by omega)]
  | succ n ih =>
    rw [newQueues, ih]
    simp only [newQueue, Function.update_apply]
    split_ifs <;> first | rfl | omega | simp_all

@[simp] theorem Queues.mem_queues_newQueues (s : Queues) (n r : ℕ) :
    r ∈ (s.newQueues n).qm.queues ↔ r ∈ s.qm.queues ∨ s.next ≤ r ∧ r < s.next + n := by
  induction n generalizing s with
  | zero =>
    rw [newQueues, or_iff_left]
    omega
  | succ n ih =>
    rw [newQueues, ih, mem_newQueue]
    simp only [newQueue]
    constructor
    · rintro ((rfl | h) | h)
      · exact .inr ⟨le_rfl, by omega⟩
      · exact .inl h
      · exact .inr ⟨by omega, by omega⟩
    · rintro (h | h)
      · exact .inl (.inr h)
      · rcases eq_or_lt_of_le h.1 with rfl | hlt
        · exact .inl (.inl rfl)
        · exact .inr ⟨hlt, by omega⟩

/-- The items of an assignment. -/
def assignItems : ℕ → List RdTopicPartition → List Term
  | _, [] => []
  | next, obj :: rest =>
    .tuple [.binary (cStr obj.topic), .int obj.partition, .int obj.offset, .ref next] ::
      assignItems (next + 1) rest

theorem partitionItems_assign (s : Queues) (objs : List RdTopicPartition) :
    partitionItems true s objs = (s.newQueues objs.length, assignItems s.next objs) := by
  induction objs generalizing s with
  | nil => rfl
  | cons obj rest ih =>
    simp only [partitionItems, ih, if_true]
    rfl

/-- The items of a revocation. -/
def revokeItems (objs : List RdTopicPartition) : List Term :=
  objs.map fun obj => .tuple [.binary (cStr obj.topic), .int obj.partition]

theorem partitionItems_revoke (s : Queues) (objs : List RdTopicPartition) :
    partitionItems false s objs = (s, revokeItems objs) := by
  induction objs with
  | nil => rfl
  | cons obj rest ih =>
    simp only [partitionItems, ih]
    rfl

/-- **What `partition_list_to_nif` makes of an assignment.** A null pointer is an empty list. -/
theorem partitionListToNif_assign (s : Queues) (partitions : RdPartitionList) :
    partitionListToNif s partitions true =
      (s.newQueues (partitions.getD []).length,
        .ofList (assignItems s.next (partitions.getD []))) := by
  cases partitions with
  | none => rfl
  | some objs =>
    simp only [partitionListToNif, partitionItems_assign]
    rfl

/-- What it makes of a revocation. -/
theorem partitionListToNif_revoke (s : Queues) (partitions : RdPartitionList) :
    partitionListToNif s partitions false = (s, .ofList (revokeItems (partitions.getD []))) := by
  cases partitions with
  | none => rfl
  | some objs =>
    simp only [partitionListToNif, partitionItems_revoke]
    rfl

end Exrdkafka.Nif
