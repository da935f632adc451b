import Exrdkafka.Consumer.Server
import Exrdkafka.Foundations.GenServer
import Mathlib.Data.List.AList

/-!
# The consumer group process

`Exrdkafka.ConsumerGroup` owns a consumer client. librdkafka's rebalance callback tells it which
partitions to consume: it starts one linked `Exrdkafka.Consumer` for each and keeps them in
`active_topics_map`, keyed by topic and partition.

What the process does to others is recorded as a list of effects. Process identifiers are numbers,
given out in the order of the starts.
-/

namespace Exrdkafka.ConsumerGroup

open GenServer

/-! ## State -/

/-- A process identifier. -/
abbrev Pid := ℕ

/-- `{topic_name, partition}` -/
abbrev TopicPartition := List UInt8 × ℤ

/-- `{pid, queue_ref}` -/
structure Entry where
  pid : Pid
  queueRef : Term
  deriving DecidableEq

/-- `active_topics_map` -/
abbrev TopicsMap := AList fun _ : TopicPartition => Entry

/-- The settings of a topic. -/
abbrev Settings := List (Term × Term)

/-- The state of the process. -/
structure State where
  clientId : String
  clientRef : Term
  topicsSettings : List UInt8 → Option Settings
  activeTopicsMap : TopicsMap
  statsCb : Term
  stats : Term

/-- What the process does besides changing its state. -/
inductive Effect where
  /-- `Consumer.start_link` returned `{:ok, pid}` -/
  | started (tp : TopicPartition) (e : Entry)
  /-- `Consumer.start_link` returned an error -/
  | startFailed (tp : TopicPartition)
  /-- `Consumer.stop` was called and returned -/
  | stop (pid : Pid)
  /-- `ExrdkafkaNif.consumer_queue_cleanup` -/
  | queueCleanup (queueRef : Term)
  /-- `ExrdkafkaNif.consumer_partition_revoke_completed` -/
  | partitionRevokeCompleted
  /-- `ExrdkafkaNif.consumer_cleanup` -/
  | consumerCleanup
  /-- a call of the statistics callback -/
  | statsCallback (callback : Term) (clientId : String) (stats : Term)
  deriving DecidableEq

/-! ## Starting -/

/-- What `init` does besides making the state. -/
inductive InitEffect where
  /-- `CacheClient.set`, with the own process -/
  | cacheSet (clientId : String) (ref : Term)
  deriving DecidableEq

/-- `init`. `consumerNew` is what `ExrdkafkaNif.consumer_new` returned: a reference, or anything
else, which stops the process. -/
def init (clientId : String) (topics : List (List UInt8 × Settings))
    (ekClientConfig : List (Term × Term)) (consumerNew : Except Term Term) :
    Except Term (State × List InitEffect) :=
  match consumerNew with
  | .error error => .error error
  | .ok clientRef =>
    .ok ({ clientId, clientRef
           -- of two entries for a topic, `Map.new` keeps the last
           topicsSettings := fun name => (topics.reverse.find? (·.1 = name)).map Prod.snd
           activeTopicsMap := ∅
           statsCb := Consumer.keywordGet ekClientConfig "stats_callback" (.atom "nil")
           stats := .atom "nil" },
      [.cacheSet clientId .undefined])

/-! ## Assigning -/

/-- An element of an assignment, `{topic_name, partition, offset, queue_ref}`. -/
structure Assigned where
  topicName : List UInt8
  partition : ℤ
  offset : ℤ
  queueRef : Term

/-- The key of an element. -/
def Assigned.key (a : Assigned) : TopicPartition := (a.topicName, a.partition)

/-- Whether `Consumer.start_link` succeeds, when the callback's `init` answers `answer`. -/
def startLink (s : State) (a : Assigned) (answer : Consumer.InitAnswer) : Bool :=
  match Consumer.init s.clientRef a.topicName a.partition a.queueRef
      (s.topicsSettings a.topicName) answer with
  | .ok _ => true
  | .stop _ | .raise => false

/-- `Enum.reduce(partitions, active_topics_map, part_fun)`: what was done, and the new map unless a
start failed. `next` is the identifier of the next process. -/
def reducePartitions (s : State) :
    Pid → TopicsMap → List (Assigned × Consumer.InitAnswer) → List Effect × Option TopicsMap
  | _, tmap, [] => ([], some tmap)
  | next, tmap, (a, answer) :: rest =>
    if startLink s a answer then
      let e : Entry := ⟨next, a.queueRef⟩
      let (es, r) := reducePartitions s (next + 1) (tmap.insert a.key e) rest
      (.started a.key e :: es, r)
    else ([.startFailed a.key], none)

/-! ## Stopping -/

/-- `get_pid_queue_pairs`; `none` is the `nil` of a partition that is not in the map. -/
def getPidQueuePairs (topicsMap : TopicsMap) (partitions : List TopicPartition) :
    List (Option Entry) :=
  partitions.map topicsMap.lookup

/-- `stop_consumers`: what was done, and whether every element matched `{pid, queue_ref}`. -/
def stopConsumers : List (Option Entry) → List Effect × Bool
  | [] => ([], true)
  | none :: _ => ([], false)
  | some e :: rest =>
    let (es, ok) := stopConsumers rest
    (.stop e.pid :: .queueCleanup e.queueRef :: es, ok)

/-- `Map.values` -/
def values (topicsMap : TopicsMap) : List Entry := topicsMap.entries.map Sigma.snd

/-- `terminate` -/
def terminate (s : State) : List Effect :=
  (stopConsumers ((values s.activeTopicsMap).map some)).1 ++ [.consumerCleanup]

/-! ## The callbacks -/

/-- The calls. -/
inductive Request where
  | getStats
  | other (request : Term)

/-- `handle_call`. The reply is `{:ok, stats}` or `:ok`. -/
def handleCall (s : State) : Request → Handled State (List Term) Effect
  | .getStats => .reply [.ok, s.stats] s []
  | .other _ => .reply [.ok] s []

/-- The messages. An assignment comes with the answers of the callbacks it starts, the statistics as
`Jason.decode` returns them. -/
inductive Info where
  | stats (decoded : Term)
  | assignPartitions (partitions : List (Assigned × Consumer.InitAnswer))
  | revokePartitions (partitions : List TopicPartition)
  | exit (sender : Pid) (reason : Term)
  | other (info : Term)

/-- `Utils.call_stats_callback` -/
def callStatsCallback (statsCb : Term) (clientId : String) (stats : Term) : List Effect :=
  if statsCb = .undefined then [] else [.statsCallback statsCb clientId stats]

/-- `handle_info`. `next` is the identifier of the next process. -/
def handleInfo (next : Pid) (s : State) : Info → Handled State (List Term) Effect
  -- what the callback raises is rescued
  | .stats decoded =>
    .noreply { s with stats := decoded } (callStatsCallback s.statsCb s.clientId decoded)
  | .assignPartitions partitions =>
    match reducePartitions s next s.activeTopicsMap partitions with
    | (es, some tmap) => .noreply { s with activeTopicsMap := tmap } es
    -- the match `{:ok, pid}` fails and the map built so far is lost
    | (es, none) => .raise es
  | .revokePartitions partitions =>
    match stopConsumers (getPidQueuePairs s.activeTopicsMap partitions) with
    | (es, true) =>
      .noreply { s with activeTopicsMap := ∅ } (es ++ [.partitionRevokeCompleted])
    -- `nil` does not match `{pid, queue_ref}`
    | (es, false) => .raise es
  | .exit _ reason =>
    if reason = .atom "normal" then .noreply s []
    else if s.activeTopicsMap.entries.length = 0 then .noreply s []
    else .stop s []
  | .other _ => .noreply s []

/-! ## Runs -/

/-- A consumer group with what it has done and the number of processes started so far. -/
structure World where
  state : State
  running : Bool
  next : Pid
  history : List Effect

/-- A consumer group after `init`: no partition is assigned. -/
def World.start (s : State) : World := ⟨{ s with activeTopicsMap := ∅ }, true, 0, []⟩

/-- The consumers started in a history. -/
def startedIn (h : List Effect) : List (TopicPartition × Entry) :=
  h.filterMap fun
    | .started tp e => some (tp, e)
    | _ => none

/-- The process has handled a message. When it stops or raises, `terminate` runs on the state before
the message. -/
def World.handled (w : World) : Handled State (List Term) Effect → World
  | .reply _ s es | .noreply s es =>
    { w with state := s, next := w.next + (startedIn es).length, history := w.history ++ es }
  | .stop s es =>
    { w with state := s, running := false, history := w.history ++ es ++ terminate s }
  | .raise es =>
    { w with running := false, history := w.history ++ es ++ terminate w.state }

/-- The queues of the elements of an assignment are new: the rebalance callback makes one for every
partition it lists. -/
def World.newQueues (w : World) : Info → Bool
  | .assignPartitions ps =>
    decide ((ps.map (·.1.queueRef)).Nodup) &&
      ps.all fun p => (startedIn w.history).all fun c => c.2.queueRef != p.1.queueRef
  | _ => true

/-- One message. A group that has terminated handles none. -/
def step (w : World) (m : Info) : Option World :=
  if w.running && w.newQueues m then some (w.handled (handleInfo w.next w.state m)) else none

end Exrdkafka.ConsumerGroup
