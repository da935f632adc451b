import Exrdkafka.Foundations.Ownership
import Exrdkafka.Foundations.Scoped
import Exrdkafka.Nif.Config
import Exrdkafka.Nif.TopicManager

/-!
# Creating and destroying clients

The functions that create, clean up and free a producer or a consumer, call by call: the
configurations, the resource, the instance of librdkafka, the managers, and which of them a return
destroys or leaves to another owner. `Call.ops` is what a call does with these objects, as
librdkafka and the runtime document it.

The contents of the configurations are those of `Nif.Config`; what the library answers comes with
the arguments. Partition queues are left to `Nif.QueueManager`, the threads of the dispatcher to
`Nif.DispatcherLifetime`.
-/

namespace Exrdkafka.Nif.Owned

open EarlyReturn Machine Ownership Scoped Term

/-! ## Objects and calls -/

/-- The objects of a client. Topics, the configurations made for them, and futures are numbered by
the calls that create them. -/
inductive Handle where
  | conf
  | defaultTopicConf
  | topicConf (n : ℕ)
  /-- the resource -/
  | resource
  /-- the instance of librdkafka -/
  | client
  | topicList
  | topicManager
  | queueManager
  | topic (n : ℕ)
  | future (n : ℕ)
  deriving DecidableEq

/-- A call made by one of the functions. -/
inductive Call where
  /-- `rd_kafka_conf_new` -/
  | confNew
  /-- `rd_kafka_conf_destroy` -/
  | confDestroy
  /-- `rd_kafka_topic_conf_new` -/
  | topicConfNew (topic : Option ℕ)
  /-- `rd_kafka_topic_conf_destroy` -/
  | topicConfDestroy (topic : Option ℕ)
  /-- the calls of `rd_kafka_conf_set` by `parse_kafka_config` -/
  | parseKafkaConfig
  /-- the calls of `rd_kafka_topic_conf_set` by `parse_topic_config` -/
  | parseTopicConfig (topic : Option ℕ)
  /-- `rd_kafka_conf_set` -/
  | confSet (name value : List UInt8)
  /-- `rd_kafka_conf_set_opaque` -/
  | setOpaque
  /-- `rd_kafka_conf_set_default_topic_conf` -/
  | setDefaultTopicConf
  | setLogCb
  | setStatsCb
  | setDrMsgCb
  | setRebalanceCb
  /-- `enif_alloc_resource` -/
  | allocResource (succeeds : Bool)
  /-- `enif_make_resource`, or a copy of a reference -/
  | makeResource
  /-- `enif_release_resource`, or the end of a reference -/
  | releaseResource
  /-- `rd_kafka_new` -/
  | rdKafkaNew (succeeds : Bool)
  /-- `rd_kafka_destroy` -/
  | rdKafkaDestroy
  /-- `rd_kafka_poll_set_consumer` -/
  | pollSetConsumer
  /-- `rd_kafka_topic_partition_list_new` -/
  | topicListNew (length : ℕ)
  /-- `rd_kafka_topic_partition_list_add` -/
  | topicListAdd (name : List UInt8)
  /-- `rd_kafka_topic_partition_list_destroy` -/
  | topicListDestroy
  /-- `rd_kafka_subscribe` -/
  | subscribe
  | newTopicManager
  | deleteTopicManager
  | newQueueManager
  | deleteQueueManager
  /-- `notifier_->watch` -/
  | watch
  /-- `notifier_->remove` -/
  | unwatch
  /-- `rd_kafka_topic_new` -/
  | topicNew (n : ℕ) (withConf succeeds : Bool)
  /-- `rd_kafka_topic_destroy` -/
  | topicDestroy (n : ℕ)
  /-- `rd_kafka_flush` -/
  | flush
  /-- `qm_->clear_all` -/
  | clearAll
  /-- `rd_kafka_consumer_close` -/
  | consumerClose
  /-- `client_stopped` is sent to the owner -/
  | sendStopped
  /-- `new std::future` -/
  | newFuture (n : ℕ)
  /-- `closed_future->get` -/
  | get (n : ℕ)
  | deleteFuture (n : ℕ)
  deriving DecidableEq

/-- The configuration of a topic, or the default one of a consumer. -/
def Handle.topicConfOf : Option ℕ → Handle
  | none => .defaultTopicConf
  | some n => .topicConf n

/-- What a call does with the objects. The instance of librdkafka takes over its configuration, and
with it the pointer to the resource that the callbacks are given; a topic needs the instance, and
takes over the configuration that it is created with. -/
def Call.ops : Call → List (Op Handle)
  | .confNew => [.create .conf]
  | .confDestroy => [.release .conf]
  | .topicConfNew n => [.create (.topicConfOf n)]
  | .topicConfDestroy n => [.release (.topicConfOf n)]
  | .parseTopicConfig n => [.use (.topicConfOf n)]
  | .parseKafkaConfig | .confSet _ _ | .setLogCb | .setStatsCb | .setDrMsgCb | .setRebalanceCb =>
    [.use .conf]
  | .setOpaque => [.use .conf, .use .resource]
  | .setDefaultTopicConf => [.give .defaultTopicConf .conf]
  | .allocResource succeeds => if succeeds then [.create .resource] else []
  | .makeResource => [.retain .resource]
  | .releaseResource => [.release .resource]
  | .rdKafkaNew succeeds =>
    if succeeds then [.create .client, .give .conf .client, .lend .resource .client]
    else [.use .conf]
  | .rdKafkaDestroy => [.release .client]
  | .pollSetConsumer | .watch | .unwatch | .flush => [.use .client]
  | .topicListNew _ => [.create .topicList]
  | .topicListAdd _ => [.use .topicList]
  | .topicListDestroy => [.release .topicList]
  | .subscribe => [.use .client, .use .topicList]
  | .newTopicManager => [.use .client, .create .topicManager]
  | .deleteTopicManager => [.release .topicManager]
  | .newQueueManager => [.use .client, .create .queueManager]
  | .deleteQueueManager => [.release .queueManager]
  | .topicNew n withConf succeeds =>
    if succeeds then
      [.create (.topic n), .lend .client (.topic n)] ++
        if withConf then [.give (.topicConf n) (.topic n)] else []
    else [.use .client]
  | .topicDestroy n => [.release (.topic n)]
  | .clearAll => [.use .queueManager, .use .client]
  | .consumerClose => [.use .client, .use .resource]
  | .sendStopped => [.use .resource]
  | .newFuture n => [.create (.future n)]
  | .get n => [.use (.future n)]
  | .deleteFuture n => [.release (.future n)]

/-- A call as a step. -/
def Call.step (h : Heap Handle) (c : Call) : Option (Heap Handle) := run Ownership.step h c.ops

/-! ## The library and its answers -/

/-- The functions of librdkafka that the results depend on. -/
structure Librdkafka (κ τ : Type) where
  confNew : κ
  confSet : ConfSet κ
  topicConfNew : τ
  topicConfSet : ConfSet τ
  sigio : Option ℕ
  /-- `rd_kafka_err2str` -/
  err2str : ℤ → String

/-- What is answered to a function that creates a client. -/
structure NewReplies where
  /-- `enif_self` -/
  self : Bool
  /-- `enif_alloc_resource` -/
  alloc : Bool
  /-- `rd_kafka_new`: the error text, if it fails -/
  rdKafkaNew : Except String Unit
  /-- `rd_kafka_subscribe` -/
  subscribe : ℤ
  /-- the reference of the resource -/
  ref : ℕ

variable {κ τ : Type}

/-! ## The resource -/

/-- The fields of `enif_producer` or `enif_consumer` that own something, with the threads started
for the resource and the references to it. -/
structure Resource where
  isConsumer : Bool
  /-- `kf` is not null -/
  kf : Bool
  /-- `topics` or `qm_` is not null -/
  manager : Bool
  /-- the map of the topic manager; the handles are numbered -/
  topics : TopicManager
  /-- the topics that were created with a configuration -/
  withConf : List ℕ
  closedFuture : Option ℕ
  /-- what is left to do for the thread of a future -/
  threads : ℕ → List Call
  refs : ℕ

/-- The resource after `memset`. -/
def Resource.zero (isConsumer : Bool) : Resource :=
  ⟨isConsumer, false, false, .empty, [], none, fun _ => [], 1⟩

/-- The numbers of the topics in the map. -/
def numbers (m : TopicManager) : List ℕ := m.topics.entries.map (·.2.address)

/-- `cleanup_producer` -/
def cleanupProducer (stopFeedback : Bool) : List Call :=
  .flush :: if stopFeedback then [.sendStopped] else []

/-- `cleanup_consumer` -/
def cleanupConsumer (stopFeedback : Bool) : List Call :=
  [.clearAll, .consumerClose, .rdKafkaDestroy] ++ if stopFeedback then [.sendStopped] else []

/-- The beginning of a destructor: a future is waited for, while its thread goes on, and otherwise
the client is cleaned up. -/
def Resource.stop (i : Resource) (cleanup : List Call) : List Call :=
  match i.closedFuture with
  | some n => i.threads n ++ [.get n, .deleteFuture n]
  | none => if i.kf then .unwatch :: cleanup else []

/-- `enif_producer_free` -/
def Resource.producerFree (i : Resource) : List Call :=
  i.stop (cleanupProducer false) ++
  (if i.manager then (numbers i.topics).map .topicDestroy ++ [.deleteTopicManager] else []) ++
  if i.kf then [.rdKafkaDestroy] else []

/-- `enif_consumer_free` -/
def Resource.consumerFree (i : Resource) : List Call :=
  i.stop (cleanupConsumer false) ++ if i.manager then [.deleteQueueManager] else []

/-- The destructor of the resource. -/
def Resource.free (i : Resource) : List Call :=
  if i.isConsumer then i.consumerFree else i.producerFree

/-! ## Creating a producer -/

/-- The result of a function that creates a client, with the resource it returns. -/
abbrev NewResult := Term × Option Resource

/-- The function returns an error. -/
def failed (error : Term) : NewResult := (error, none)

/-- `{:ok, ref}` -/
def created (ref : ℕ) (i : Resource) : NewResult := (.tuple [Term.ok, .ref ref], some i)

/-- `get_boolean` -/
def getBoolean : Term → Option Bool
  | .atom "true" => some true
  | .atom "false" => some false
  | _ => none

/-- The result of a parse, which is returned when it is not `:ok`. -/
def parsed {α : Type} (x : Except Term α) : Scoped.Body NewResult Call α :=
  orElse (x.mapError failed)

/-- The body of `enif_producer_new`. -/
def producerNew (lib : Librdkafka κ τ) (hasDrCallback config : Term) (r : NewReplies) :
    Scoped.Body NewResult Call NewResult := do
  let hasDrCallback ← orReturn (getBoolean hasDrCallback) (failed makeBadarg)
  call .confNew
  scopedPtr .confDestroy
  call .parseKafkaConfig
  let _ ← parsed (parseKafkaConfig lib.confSet lib.sigio config lib.confNew)
  call .setLogCb
  call .setStatsCb
  calls (if hasDrCallback then [.setDrMsgCb] else [])
  call (.allocResource r.alloc)
  returnIf (!r.alloc) (failed (makeError "failed to alloc producer"))
  scopedPtr .releaseResource
  call .setOpaque
  call (.rdKafkaNew r.rdKafkaNew.isOk)
  let _ ← orElse (r.rdKafkaNew.mapError fun errstr => failed (makeError errstr))
  scopedPtr .rdKafkaDestroy
  release .confDestroy
  call .newTopicManager
  release .rdKafkaDestroy
  call .watch
  call .makeResource
  call .releaseResource
  release .releaseResource
  return created r.ref { Resource.zero false with kf := true, manager := true }

/-- `enif_producer_new` -/
def enifProducerNew (lib : Librdkafka κ τ) (hasDrCallback config : Term) (r : NewReplies) :
    NewResult × List Call :=
  finish (producerNew lib hasDrCallback config r)

/-! ## Creating a consumer -/

/-- The loop of `topic_subscribe`; returns whether all topics were added. -/
def addTopics : List Term → Scoped.Body Bool Call Unit
  | [] => pure ()
  | head :: rest => do
    let name ← orReturn (getString head) false
    call (.topicListAdd (cStr name))
    addTopics rest

/-- The body of `topic_subscribe`; returns whether the result is not null. -/
def topicSubscribe (list : Term) : Scoped.Body Bool Call Bool := do
  let elems ← orReturn list.toList? false
  returnIf (elems.length < 1) false
  call (.topicListNew elems.length)
  scopedPtr .topicListDestroy
  addTopics elems
  release .topicListDestroy
  return true

/-- The arguments of `enif_consumer_new`. -/
structure ConsumerArgs where
  groupId : Term
  topics : Term
  clientConfig : Term
  topicConfig : Term

/-- The body of `enif_consumer_new`. -/
def consumerNew (lib : Librdkafka κ τ) (a : ConsumerArgs) (r : NewReplies) :
    Scoped.Body NewResult Call NewResult := do
  returnIf (!r.self) (failed makeBadarg)
  let groupId ← orReturn (getString a.groupId) (failed makeBadarg)
  call .confNew
  scopedPtr .confDestroy
  call (.topicConfNew none)
  scopedPtr (.topicConfDestroy none)
  call .parseKafkaConfig
  let conf ← parsed (parseKafkaConfig lib.confSet lib.sigio a.clientConfig lib.confNew)
  call (.parseTopicConfig none)
  let _ ← parsed (parseTopicConfig lib.topicConfSet a.topicConfig lib.topicConfNew)
  call (.confSet (utf8 "group.id") (cStr groupId))
  let _ ← orElse ((lib.confSet conf (utf8 "group.id") (cStr groupId)).mapError
    fun errstr => failed (makeError errstr))
  call (.allocResource r.alloc)
  returnIf (!r.alloc) (failed (makeError "failed to alloc consumer"))
  scopedPtr .releaseResource
  call .setOpaque
  release (.topicConfDestroy none)
  call .setDefaultTopicConf
  call .setLogCb
  call .setRebalanceCb
  call .setStatsCb
  call (.rdKafkaNew r.rdKafkaNew.isOk)
  let _ ← orElse (r.rdKafkaNew.mapError fun errstr => failed (makeError errstr))
  scopedPtr .rdKafkaDestroy
  release .confDestroy
  call .pollSetConsumer
  let topics := finish (topicSubscribe a.topics)
  calls topics.2
  returnIf (!topics.1) (failed (makeError "invalid topic list"))
  scopedPtr .topicListDestroy
  call .subscribe
  returnIf (decide (r.subscribe ≠ 0)) (failed (makeError (lib.err2str r.subscribe)))
  release .rdKafkaDestroy
  call .newQueueManager
  call .watch
  call .makeResource
  return created r.ref { Resource.zero true with kf := true, manager := true }

/-- `enif_consumer_new` -/
def enifConsumerNew (lib : Librdkafka κ τ) (a : ConsumerArgs) (r : NewReplies) :
    NewResult × List Call :=
  finish (consumerNew lib a r)

/-! ## Topics -/

/-- The calls of `AddTopic`, and the map it leaves. -/
def addTopicCalls (m : TopicManager) (name : List UInt8) (n : ℕ) (withConf succeeds : Bool) :
    List Call :=
  if name ∈ m.topics then [] else [.topicNew n withConf succeeds]

/-- The body of `enif_producer_topic_new`; `n` is the number of a topic that it creates, and
`succeeds` what `rd_kafka_topic_new` answers. -/
def producerTopicNew (lib : Librdkafka κ τ) (m : TopicManager) (clientRef topicName config : Term)
    (n : ℕ) (succeeds : Bool) : Scoped.Body (Term × TopicManager) Call (Term × TopicManager) := do
  let _ ← orReturn (getResource clientRef) (makeBadarg, m)
  let name ← orReturn (getString topicName) (makeBadarg, m)
  call (.topicConfNew (some n))
  scopedPtr (.topicConfDestroy (some n))
  call (.parseTopicConfig (some n))
  let _ ← orElse ((parseTopicConfig lib.topicConfSet config lib.topicConfNew).mapError (·, m))
  calls (addTopicCalls m name n true succeeds)
  let added := m.addTopic name (if succeeds then some n else none)
  returnIf added.topic.isNone (added.reply, added.manager)
  release (.topicConfDestroy (some n))
  return (added.reply, added.manager)

/-- `enif_producer_topic_new` -/
def enifProducerTopicNew (lib : Librdkafka κ τ) (m : TopicManager)
    (clientRef topicName config : Term) (n : ℕ) (succeeds : Bool) :
    (Term × TopicManager) × List Call :=
  finish (producerTopicNew lib m clientRef topicName config n succeeds)

end Exrdkafka.Nif.Owned
