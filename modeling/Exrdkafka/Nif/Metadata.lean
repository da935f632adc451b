import Exrdkafka.Foundations.EarlyReturn
import Exrdkafka.Foundations.Trace
import Exrdkafka.Nif.Utils

/-!
# Metadata queries

`enif_get_metadata` turns the metadata of a cluster into a map, `enif_get_partitions_count` looks up
the number of partitions of one topic. Both ask librdkafka for the metadata, which they have to
destroy, and the second one creates a topic handle. They are followed call by call, with every read
of the metadata.

* `Complete` and `Counts` are what the two functions are for; `metadata_queries` says when they do
  it. The errors of `enif_get_metadata` leave the metadata behind, and `enif_get_partitions_count`
  reads the count after it has destroyed the metadata.
-/

namespace Exrdkafka.Nif

open EarlyReturn Term

/-- `rd_kafka_metadata_broker` -/
structure MetadataBroker where
  id : ℤ
  host : List UInt8
  port : ℤ

/-- `rd_kafka_metadata_partition` -/
structure MetadataPartition where
  id : ℤ
  err : ℤ
  leader : ℤ
  replicas : List ℤ
  isrs : List ℤ

/-- `rd_kafka_metadata_topic` -/
structure MetadataTopic where
  topic : List UInt8
  partitions : List MetadataPartition
  err : ℤ

/-- `rd_kafka_metadata`, as a response -/
structure Metadata where
  brokers : List MetadataBroker
  topics : List MetadataTopic

/-- A call of a function of librdkafka, or a read of the metadata. -/
inductive MetadataCall where
  /-- `rd_kafka_topic_new`, which may return a null pointer -/
  | topicNew (created : Bool)
  /-- `rd_kafka_metadata`, which may fail -/
  | request (answered : Bool)
  | read
  | metadataDestroy
  | topicDestroy
  deriving DecidableEq

/-- `RD_KAFKA_RESP_ERR_LEADER_NOT_AVAILABLE` -/
def respErrLeaderNotAvailable : ℤ := 5

/-- A part of one of the two functions. -/
abbrev MetadataPart := Body Term Unit MetadataCall

namespace Metadata

/-! ## `enif_get_metadata` -/

/-- A broker as a map. -/
def brokerMap (b : MetadataBroker) : Term :=
  .map [(.atom "id", .int b.id), (.atom "host", .binary (cStr b.host)), (.atom "port", .int b.port)]

/-- A partition as a map. -/
def partitionMap (p : MetadataPartition) : Term :=
  .map [(.atom "id", .int p.id), (.atom "leader", .int p.leader),
    (.atom "replicas", ofList (p.replicas.map .int)), (.atom "isrs", ofList (p.isrs.map .int))]

/-- A topic as a map, with the maps of its partitions. -/
def topicMap (t : MetadataTopic) (partitions : List Term) : Term :=
  .map [(.atom "name", .binary (cStr t.topic)), (.atom "partitions", ofList partitions)]

/-- The loop over the brokers. -/
def brokerArr : List MetadataBroker → MetadataPart (List Term)
  | [] => do
    call .read
    return []
  | b :: rest => do
    call .read
    let arr ← brokerArr rest
    return brokerMap b :: arr

/-- The loop over the partitions of a topic. -/
def partitionArr : List MetadataPartition → MetadataPart (List Term)
  | [] => do
    call .read
    return []
  | p :: rest => do
    call .read
    (if p.err ≠ 0 then throw (makeError "failed to get partition info") else pure ())
    let arr ← partitionArr rest
    return partitionMap p :: arr

/-- The loop over the topics. -/
def topicArr : List MetadataTopic → MetadataPart (List Term)
  | [] => do
    call .read
    return []
  | t :: rest => do
    call .read
    (if t.err ≠ 0 then
      if t.err = respErrLeaderNotAvailable then throw (makeError "failed to get topic info")
      else pure ()
    else pure ())
    let partitions ← partitionArr t.partitions
    let arr ← topicArr rest
    return topicMap t partitions :: arr

/-- `enif_get_metadata`; a response is none when `rd_kafka_metadata` fails. -/
def enifGetMetadata (clientRef : Term) (response : Option Metadata) : MetadataPart Term := do
  let _ ← orReturn (getResource clientRef) makeBadarg
  call (.request response.isSome)
  let metadata ← orReturn response (makeError "failed to get metadata")
  let brokers ← brokerArr metadata.brokers
  let topics ← topicArr metadata.topics
  call .metadataDestroy
  return .tuple [Term.ok, .map [(.atom "brokers", ofList brokers), (.atom "topics", ofList topics)]]

/-! ## `enif_get_partitions_count` -/

/-- The loop over the topics: the first of that name ends it, with the count read at the end. -/
def countLoop (name : List UInt8) : List MetadataTopic → MetadataPart Unit
  | [] => call .read
  | t :: rest => do
    call .read
    if cStr t.topic = cStr name then do
      call .metadataDestroy
      call .topicDestroy
      call .read
      throw (.int t.partitions.length)
    else countLoop name rest

/-- `enif_get_partitions_count`; `created` says whether the topic handle could be created. -/
def enifGetPartitionsCount (clientRef topicName : Term) (created : Bool)
    (response : Option Metadata) : MetadataPart Term := do
  let _ ← orReturn (getResource clientRef) makeBadarg
  let name ← orReturn (getString topicName) makeBadarg
  call (.topicNew created)
  call (.request response.isSome)
  let metadata ← orReturn response (makeError "failed to get metadata")
  countLoop name metadata.topics
  call .metadataDestroy
  call .topicDestroy
  return Term.ok

/-- The result of a function and the calls it has made. -/
def outcome (body : MetadataPart Term) : Term × List MetadataCall :=
  ((exit body ⟨(), []⟩).1, (exit body ⟨(), []⟩).2.calls)

/-! ## The loops -/

/-- The topic makes `enif_get_metadata` fail. -/
def TopicFailed (t : MetadataTopic) : Prop :=
  t.err = respErrLeaderNotAvailable ∨ ∃ p ∈ t.partitions, p.err ≠ 0

/-- A frame after some more reads. -/
def reads (n : ℕ) (f : Frame Unit MetadataCall) : Frame Unit MetadataCall :=
  { f with calls := f.calls ++ List.replicate n .read }

theorem call_read (f : Frame Unit MetadataCall) :
    (call .read : MetadataPart Unit) f = .ok () (reads 1 f) := rfl

@[simp] theorem reads_reads (m n : ℕ) (f : Frame Unit MetadataCall) :
    reads n (reads m f) = reads (m + n) f := by
  simp only [reads, List.append_assoc, List.replicate_append_replicate]

theorem brokerArr_run (brokers : List MetadataBroker) (f : Frame Unit MetadataCall) :
    ∃ n, brokerArr brokers f = .ok (brokers.map brokerMap) (reads n f) := by
  induction brokers generalizing f with
  | nil => exact ⟨1, rfl⟩
  | cons b rest ih =>
    obtain ⟨n, hrun⟩ := ih (reads 1 f)
    refine ⟨1 + n, ?_⟩
    rw [brokerArr, bind_ok (call_read f), bind_ok hrun, reads_reads]
    rfl

/-- The loop over the partitions gets to the end, or to the first one with an error. -/
theorem partitionArr_run (partitions : List MetadataPartition) (f : Frame Unit MetadataCall) :
    ∃ n, ((∀ p ∈ partitions, p.err = 0) ∧
        partitionArr partitions f = .ok (partitions.map partitionMap) (reads n f)) ∨
      ((∃ p ∈ partitions, p.err ≠ 0) ∧
        partitionArr partitions f =
          .error (makeError "failed to get partition info") (reads n f)) := by
  induction partitions generalizing f with
  | nil => exact ⟨1, Or.inl ⟨by simp, rfl⟩⟩
  | cons p rest ih =>
    by_cases herr : p.err = 0
    · obtain ⟨n, hrun⟩ := ih (reads 1 f)
      refine ⟨1 + n, hrun.imp ?_ ?_⟩
      · rintro ⟨hall, hrun⟩
        refine ⟨List.forall_mem_cons.2 ⟨herr, hall⟩, ?_⟩
        rw [partitionArr, bind_ok (call_read f), if_neg (not_not.2 herr), pure_bind, bind_ok hrun,
          reads_reads]
        rfl
      · rintro ⟨⟨q, hq, hne⟩, hrun⟩
        refine ⟨⟨q, List.mem_cons_of_mem p hq, hne⟩, ?_⟩
        rw [partitionArr, bind_ok (call_read f), if_neg (not_not.2 herr), pure_bind,
          bind_error hrun, reads_reads]
    · refine ⟨1, Or.inr ⟨⟨p, List.mem_cons_self, herr⟩, ?_⟩⟩
      rw [partitionArr, bind_ok (call_read f), if_pos herr, bind_error (throw_apply _)]

/-- The loop over the topics gets to the end, or to the first one that fails. -/
theorem topicArr_run (topics : List MetadataTopic) (f : Frame Unit MetadataCall) :
    ∃ n, ((∀ t ∈ topics, ¬ TopicFailed t) ∧ topicArr topics f =
        .ok (topics.map fun t => topicMap t (t.partitions.map partitionMap)) (reads n f)) ∨
      ((∃ t ∈ topics, TopicFailed t) ∧
        ∃ text, topicArr topics f = .error (makeError text) (reads n f)) := by
  induction topics generalizing f with
  | nil => exact ⟨1, Or.inl ⟨by simp, rfl⟩⟩
  | cons t rest ih =>
    by_cases herr : t.err = respErrLeaderNotAvailable
    · refine ⟨1, Or.inr ⟨⟨t, List.mem_cons_self, Or.inl herr⟩, "failed to get topic info", ?_⟩⟩
      rw [topicArr, bind_ok (call_read f), if_pos (by rw [herr]; decide), if_pos herr,
        bind_error (throw_apply _)]
    · have hgoOn : (if t.err ≠ 0 then
          if t.err = respErrLeaderNotAvailable then throw (makeError "failed to get topic info")
          else pure () else pure () : MetadataPart Unit) = pure () := by
        rw [if_neg herr, ite_self]
      obtain ⟨m, ⟨hpartitions, hrun⟩ | ⟨hpartition, hrun⟩⟩ :=
        partitionArr_run t.partitions (reads 1 f)
      · have hnot : ¬ TopicFailed t := by
          rintro (h | ⟨p, hp, hne⟩)
          · exact herr h
          · exact hne (hpartitions p hp)
        obtain ⟨n, hrest⟩ := ih (reads m (reads 1 f))
        refine ⟨1 + (m + n), hrest.imp ?_ ?_⟩
        · rintro ⟨hall, hrest⟩
          refine ⟨List.forall_mem_cons.2 ⟨hnot, hall⟩, ?_⟩
          rw [topicArr, bind_ok (call_read f), hgoOn, pure_bind, bind_ok hrun, bind_ok hrest,
            reads_reads, reads_reads]
          rfl
        · rintro ⟨⟨u, hu, hfailed⟩, text, hrest⟩
          refine ⟨⟨u, List.mem_cons_of_mem t hu, hfailed⟩, text, ?_⟩
          rw [topicArr, bind_ok (call_read f), hgoOn, pure_bind, bind_ok hrun, bind_error hrest,
            reads_reads, reads_reads]
      · refine ⟨1 + m, Or.inr ⟨⟨t, List.mem_cons_self, Or.inr hpartition⟩,
          "failed to get partition info", ?_⟩⟩
        rw [topicArr, bind_ok (call_read f), hgoOn, pure_bind, bind_error hrun, reads_reads]

/-! ## Completeness and release -/

/-- The whole response, in order. -/
def listing (m : Metadata) : Term :=
  .tuple [Term.ok, .map [(.atom "brokers", ofList (m.brokers.map brokerMap)),
    (.atom "topics",
      ofList (m.topics.map fun t => topicMap t (t.partitions.map partitionMap)))]]

/-- What `enif_get_metadata` is to do with a response. -/
structure Complete (m : Metadata) (o : Term × List MetadataCall) : Prop where
  listed : (∀ t ∈ m.topics, ¬ TopicFailed t) → o.1 = m.listing
  failed : (∃ t ∈ m.topics, TopicFailed t) → ∃ text, o.1 = makeError text
  released : o.2.count .metadataDestroy = 1

/-- The topic of that name in the response. -/
def topicOf (m : Metadata) (topicName : Term) : Option MetadataTopic :=
  (getString topicName).bind fun name => m.topics.find? (cStr ·.topic = cStr name)

/-- What `enif_get_partitions_count` is to do. -/
structure Counts (topicName : Term) (response : Option Metadata) (o : Term × List MetadataCall) :
    Prop where
  counted : ∀ m t, response = some m → m.topicOf topicName = some t →
    o.1 = .int t.partitions.length
  released : o.2.count .metadataDestroy = o.2.count (.request true)
  topicReleased : o.2.count .topicDestroy = o.2.count (.topicNew true)
  unread : Trace.AtEach (fun pre call => call = .read → .metadataDestroy ∉ pre) o.2

/-- The calls of `enif_get_metadata`: without a failure it destroys the metadata, with one it leaves
it. -/
theorem outcome_enifGetMetadata (id : ℕ) (m : Metadata) :
    ∃ n, ((∀ t ∈ m.topics, ¬ TopicFailed t) ∧
        outcome (enifGetMetadata (.ref id) (some m)) =
          (m.listing, .request true :: List.replicate n .read ++ [.metadataDestroy])) ∨
      ((∃ t ∈ m.topics, TopicFailed t) ∧ ∃ text,
        outcome (enifGetMetadata (.ref id) (some m)) =
          (makeError text, .request true :: List.replicate n .read)) := by
  have hrequest : (call (.request true) : MetadataPart Unit) ⟨(), []⟩ =
      .ok () ⟨(), [.request true]⟩ := rfl
  obtain ⟨k, hbrokers⟩ := brokerArr_run m.brokers ⟨(), [.request true]⟩
  obtain ⟨n, ⟨hall, htopics⟩ | ⟨hfailed, text, htopics⟩⟩ :=
    topicArr_run m.topics (reads k ⟨(), [.request true]⟩)
  · refine ⟨k + n, Or.inl ⟨hall, ?_⟩⟩
    have hrun : enifGetMetadata (.ref id) (some m) ⟨(), []⟩ = .ok m.listing
        ⟨(), .request true :: List.replicate (k + n) .read ++ [.metadataDestroy]⟩ := by
      rw [enifGetMetadata, getResource, orReturn_some, pure_bind, Option.isSome_some,
        bind_ok hrequest, orReturn_some, pure_bind, bind_ok hbrokers, bind_ok htopics, reads_reads]
      rfl
    simp only [outcome, exit, hrun]
  · refine ⟨k + n, Or.inr ⟨hfailed, text, ?_⟩⟩
    have hrun : enifGetMetadata (.ref id) (some m) ⟨(), []⟩ = .error (makeError text)
        ⟨(), .request true :: List.replicate (k + n) .read⟩ := by
      rw [enifGetMetadata, getResource, orReturn_some, pure_bind, Option.isSome_some,
        bind_ok hrequest, orReturn_some, pure_bind, bind_ok hbrokers, bind_error htopics,
        reads_reads]
      rfl
    simp only [outcome, exit, hrun]

theorem complete_iff (id : ℕ) (m : Metadata) :
    Complete m (outcome (enifGetMetadata (.ref id) (some m))) ↔
      ∀ t ∈ m.topics, ¬ TopicFailed t := by
  obtain ⟨n, ⟨hall, hrun⟩ | ⟨⟨t, ht, hfailed⟩, text, hrun⟩⟩ := outcome_enifGetMetadata id m
  · refine iff_of_true ?_ hall
    rw [hrun]
    refine ⟨fun _ => rfl, fun ⟨t, ht, hfailed⟩ => absurd hfailed (hall t ht), ?_⟩
    simp [List.count_replicate]
  · refine iff_of_false (fun h => ?_) fun hall => hall t ht hfailed
    have hreleased := h.released
    simp [hrun, List.count_replicate] at hreleased

/-- The loop over the topics ends at the first one of that name. -/
theorem countLoop_run (name : List UInt8) (topics : List MetadataTopic)
    (f : Frame Unit MetadataCall) :
    ∃ n, (topics.find? (cStr ·.topic = cStr name) = none ∧
        countLoop name topics f = .ok () (reads n f)) ∨
      ∃ t, topics.find? (cStr ·.topic = cStr name) = some t ∧
        countLoop name topics f = .error (.int t.partitions.length)
          ⟨(), (reads n f).calls ++ [.metadataDestroy, .topicDestroy, .read]⟩ := by
  induction topics generalizing f with
  | nil => exact ⟨1, Or.inl ⟨rfl, rfl⟩⟩
  | cons t rest ih =>
    by_cases hname : cStr t.topic = cStr name
    · refine ⟨1, Or.inr ⟨t, by simp [hname], ?_⟩⟩
      rw [countLoop, bind_ok (call_read f), if_pos hname, bind_ok (call_apply _),
        bind_ok (call_apply _), bind_ok (call_apply _), throw_apply]
      simp
    · obtain ⟨n, hrun⟩ := ih (reads 1 f)
      have hstep : countLoop name (t :: rest) f = countLoop name rest (reads 1 f) := by
        rw [countLoop, bind_ok (call_read f), if_neg hname]
      refine ⟨1 + n, ?_⟩
      rw [hstep, List.find?_cons_of_neg (by simpa using hname), ← reads_reads]
      exact hrun

/-- The calls of `enif_get_partitions_count`, for a name that can be read. -/
theorem outcome_enifGetPartitionsCount (id : ℕ) {topicName : Term} {name : List UInt8}
    (hname : getString topicName = some name) (created : Bool) (response : Option Metadata) :
    (response = none ∧ outcome (enifGetPartitionsCount (.ref id) topicName created response) =
      (makeError "failed to get metadata", [.topicNew created, .request false])) ∨
    ∃ m n, response = some m ∧ ((m.topicOf topicName = none ∧
        outcome (enifGetPartitionsCount (.ref id) topicName created response) =
          (Term.ok, .topicNew created :: .request true ::
            (List.replicate n .read ++ [.metadataDestroy, .topicDestroy]))) ∨
      ∃ t, m.topicOf topicName = some t ∧
        outcome (enifGetPartitionsCount (.ref id) topicName created response) =
          (.int t.partitions.length, .topicNew created :: .request true ::
            (List.replicate n .read ++ [.metadataDestroy, .topicDestroy, .read]))) := by
  have hbody : enifGetPartitionsCount (.ref id) topicName created response ⟨(), []⟩ =
      (do
        let metadata ← orReturn response (makeError "failed to get metadata")
        countLoop name metadata.topics
        call .metadataDestroy
        call .topicDestroy
        return Term.ok : MetadataPart Term)
      ⟨(), [.topicNew created, .request response.isSome]⟩ := by
    rw [enifGetPartitionsCount, getResource, orReturn_some, pure_bind, hname, orReturn_some,
      pure_bind, bind_ok (call_apply _), bind_ok (call_apply _)]
    rfl
  cases response with
  | none =>
    refine Or.inl ⟨rfl, ?_⟩
    rw [orReturn_none, bind_error (throw_apply _)] at hbody
    simp only [outcome, exit, hbody]
    rfl
  | some m =>
    rw [orReturn_some, pure_bind] at hbody
    have htopicOf : m.topicOf topicName = m.topics.find? (cStr ·.topic = cStr name) := by
      rw [topicOf, hname]
      rfl
    obtain ⟨n, ⟨hfind, hrun⟩ | ⟨t, hfind, hrun⟩⟩ :=
      countLoop_run name m.topics ⟨(), [.topicNew created, .request true]⟩
    · refine Or.inr ⟨m, n, rfl, Or.inl ⟨htopicOf.trans hfind, ?_⟩⟩
      rw [Option.isSome_some, bind_ok hrun, bind_ok (call_apply _), bind_ok (call_apply _),
        pure_apply] at hbody
      simp [outcome, exit, hbody, reads]
    · refine Or.inr ⟨m, n, rfl, Or.inr ⟨t, htopicOf.trans hfind, ?_⟩⟩
      rw [Option.isSome_some, bind_error hrun] at hbody
      simp [outcome, exit, hbody, reads]

/-- Nothing is read after the metadata is destroyed. -/
theorem unread_append (calls : List MetadataCall) (n : ℕ)
    (hcalls : ∀ c ∈ calls, c ≠ .metadataDestroy) :
    Trace.AtEach (fun pre call => call = .read → .metadataDestroy ∉ pre)
      (calls ++ (List.replicate n .read ++ [.metadataDestroy, .topicDestroy])) := by
  have hbefore : ∀ c ∈ calls ++ List.replicate n .read, c ≠ .metadataDestroy := by
    intro c hc
    rcases List.mem_append.1 hc with hc | hc
    · exact hcalls c hc
    · rw [List.eq_of_mem_replicate hc]
      simp
  have hreads : Trace.AtEach (fun pre call => call = .read → .metadataDestroy ∉ pre)
      (calls ++ List.replicate n .read) := by
    rintro pre call post heq - hmem
    exact hbefore _ (heq ▸ List.mem_append_left _ hmem) rfl
  rw [show calls ++ (List.replicate n MetadataCall.read ++ [.metadataDestroy, .topicDestroy]) =
    calls ++ List.replicate n .read ++ [.metadataDestroy] ++ [.topicDestroy] by simp]
  exact Trace.atEach_concat.2 ⟨Trace.atEach_concat.2 ⟨hreads, by simp⟩, by simp⟩

/-- A read after the metadata is destroyed. -/
theorem not_unread (calls : List MetadataCall) :
    ¬ Trace.AtEach (fun pre call => call = .read → .metadataDestroy ∉ pre)
      (calls ++ [.metadataDestroy, .topicDestroy, .read]) := by
  intro h
  refine h (calls ++ [.metadataDestroy, .topicDestroy]) .read [] (by simp) rfl ?_
  simp

/-- After a failed request the handle is left, if there is one. -/
theorem counts_failed_iff (topicName reply : Term) (created : Bool) :
    Counts topicName none (reply, [.topicNew created, .request false]) ↔ created = false := by
  constructor
  · intro h
    have hreleased := h.topicReleased
    cases created
    · rfl
    · simp at hreleased
  · rintro rfl
    refine ⟨fun m t hm => (by cases hm), by simp, by simp, ?_⟩
    rintro pre call post heq rfl
    have hmem : MetadataCall.read ∈ pre ++ .read :: post := by simp
    rw [← heq] at hmem
    simp at hmem

/-- When no topic has the name, the handle is destroyed, even if it is a null pointer. -/
theorem counts_absent_iff {topicName : Term} {m : Metadata} (hfound : m.topicOf topicName = none)
    (reply : Term) (created : Bool) (n : ℕ) :
    Counts topicName (some m) (reply, .topicNew created :: .request true ::
      (List.replicate n .read ++ [.metadataDestroy, .topicDestroy])) ↔ created = true := by
  constructor
  · intro h
    have hreleased := h.topicReleased
    cases created
    · simp [List.count_replicate] at hreleased
    · rfl
  · rintro rfl
    refine ⟨fun m' t hm hfound' => ?_, by simp [List.count_replicate],
      by simp [List.count_replicate], unread_append [.topicNew true, .request true] n (by simp)⟩
    obtain rfl := Option.some.inj hm
    rw [hfound] at hfound'
    cases hfound'

/-- The count of a topic is read too late. -/
theorem not_counts_found (topicName reply : Term) (response : Option Metadata) (created : Bool)
    (n : ℕ) : ¬ Counts topicName response (reply, .topicNew created :: .request true ::
      (List.replicate n .read ++ [.metadataDestroy, .topicDestroy, .read])) :=
  fun h => not_unread (.topicNew created :: .request true :: List.replicate n .read)
    (by simpa using h.unread)

theorem counts_iff (id : ℕ) (topicName : Term) (created : Bool) (response : Option Metadata) :
    Counts topicName response
        (outcome (enifGetPartitionsCount (.ref id) topicName created response)) ↔
      getString topicName = none ∨ (created = false ∧ response = none) ∨
        (created = true ∧ ∃ m, response = some m ∧ m.topicOf topicName = none) := by
  cases hname : getString topicName with
  | none =>
    have hrun : outcome (enifGetPartitionsCount (.ref id) topicName created response) =
        (makeBadarg, []) := by
      simp [outcome, exit, enifGetPartitionsCount, getResource, hname, bind_error (throw_apply _)]
    rw [hrun]
    refine iff_of_true ⟨fun m t _ hfound => ?_, rfl, rfl, Trace.atEach_nil⟩ (Or.inl rfl)
    simp [topicOf, hname] at hfound
  | some name =>
    rcases outcome_enifGetPartitionsCount id hname created response with
      ⟨rfl, hrun⟩ | ⟨m, n, rfl, ⟨hfound, hrun⟩ | ⟨t, hfound, hrun⟩⟩
    · rw [hrun, counts_failed_iff]
      simp
    · rw [hrun, counts_absent_iff hfound]
      simp [hfound]
    · rw [hrun]
      exact iff_of_false (not_counts_found _ _ _ created n) (by simp [hfound])

/-- **When metadata queries are complete and release their handles.** -/
theorem metadata_queries (id : ℕ) (m : Metadata) (topicName : Term) (created : Bool)
    (response : Option Metadata) :
    (Complete m (outcome (enifGetMetadata (.ref id) (some m))) ↔
      ∀ t ∈ m.topics, ¬ TopicFailed t) ∧
    (Counts topicName response
        (outcome (enifGetPartitionsCount (.ref id) topicName created response)) ↔
      getString topicName = none ∨ (created = false ∧ response = none) ∨
        (created = true ∧ ∃ m, response = some m ∧ m.topicOf topicName = none)) :=
  ⟨complete_iff id m, counts_iff id topicName created response⟩

/-- A topic without a leader leaves the metadata behind, and the count of a topic is read from
metadata that has been destroyed. -/
theorem metadata_queries_fail :
    ¬ Complete ⟨[], [⟨[116], [], 5⟩]⟩
      (outcome (enifGetMetadata (.ref 0) (some ⟨[], [⟨[116], [], 5⟩]⟩))) ∧
    ¬ Counts (.binary [116]) (some ⟨[], [⟨[116], [⟨0, 0, 1, [1], [1]⟩], 0⟩]⟩)
      (outcome (enifGetPartitionsCount (.ref 0) (.binary [116]) true
        (some ⟨[], [⟨[116], [⟨0, 0, 1, [1], [1]⟩], 0⟩]⟩))) := by
  constructor
  · rw [complete_iff]
    simp [TopicFailed, respErrLeaderNotAvailable]
  · rw [counts_iff]
    simp [getString, getBinary, topicOf]

end Metadata

end Exrdkafka.Nif
