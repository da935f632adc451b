import Exrdkafka.Foundations.EarlyReturn
import Exrdkafka.Foundations.Trace
import Exrdkafka.Nif.Produce
import Exrdkafka.Nif.TopicManager

/-!
# Producing, with and without a flush

`enif_produce` and `enif_produce_sync` are two functions with the same text up to the last lines,
where the second one flushes. Here they are followed call by call: the header list that they
allocate, fill and hand to librdkafka or destroy, the topic handle they look up or create, the
message they offer and the flush.

* `enifProduceSync_eq`: the second function is the first one, and a flush where that returns `:ok`.
* `Disciplined` is what the calls of a function have to meet: no header list is lost or destroyed
  twice, and nothing is flushed but an accepted message. `Underway` is the invariant on the way.
-/

namespace Exrdkafka.Nif

open EarlyReturn Term

namespace Traced

/-- A header list, with the headers that have been added to it. -/
abbrev Headers := List (List UInt8 × List UInt8)

/-- A call of a function of librdkafka. -/
inductive RdCall where
  | headersNew (length : ℕ)
  | headerAdd (key value : List UInt8)
  | headersDestroy
  | topicNew (name : List UInt8)
  /-- `rd_kafka_produce`, which reports `code` -/
  | produce (topic : TopicHandle) (partition : ℤ) (value key : Option (List UInt8)) (code : ℤ)
  /-- `rd_kafka_producev`, which returns `code` -/
  | producev (topic : List UInt8) (partition : ℤ) (value key : Option (List UInt8))
      (headers : Option Headers) (timestamp code : ℤ)
  | flush (code : ℤ)
  deriving DecidableEq

/-- What librdkafka answers: whether the header at an index can be added, the handle of a new topic,
the code of the produce call (`0` when the message is accepted) and that of the flush. -/
structure Replies where
  headerAdd : ℕ → Bool
  topicNew : Option ℕ
  code : ℤ
  flush : ℤ

/-- The variable `headers`, a scoped pointer, and the topic handles of the producer. -/
structure Locals where
  headers : Option Headers
  topics : TopicManager

/-- A part of one of the two functions. -/
abbrev Part := Body Term Locals RdCall

/-- `headers.reset(rd_kafka_headers_new(length))` on a null pointer -/
def newHeaders (length : ℕ) : Part Unit := do
  call (.headersNew length)
  assign fun l => { l with headers := some [] }

/-- `headers.release()` -/
def releaseHeaders : Part Unit := assign fun l => { l with headers := none }

/-- `populate_headers`, from the header at the index `i` on. -/
def populateHeaders (r : Replies) : ℕ → List Term → Part Bool
  | _, [] => pure true
  | i, .tuple [k, v] :: rest =>
    match getBinary k, getBinary v with
    | some k, some v => do
      call (.headerAdd k v)
      if r.headerAdd i then do
        assign fun l => { l with headers := l.headers.map (· ++ [(k, v)]) }
        populateHeaders r (i + 1) rest
      else pure false
    | _, _ => pure false
  | _, _ :: _ => pure false

/-- `producer->topics->GetOrCreateTopic(topic_name)` -/
def getOrCreateTopic (r : Replies) (name : List UInt8) : Part (Option TopicHandle) := do
  let l ← locals
  if name ∉ l.topics.topics then call (.topicNew (cStr name))
  let (manager, topic) := l.topics.getOrCreateTopic name r.topicNew
  assign fun l => { l with topics := manager }
  return topic

/-- `enif_produce` -/
def enifProduce (clientRef : Term) (e : Event) (r : Replies) : Part Term := do
  let _ ← orReturn (getResource clientRef) makeBadarg
  let topicName ← orReturn (getString e.topicName) makeBadarg
  let partition ← orReturn (getInt e.partition) makeBadarg
  let key ← orReturn (getOptional e.key) makeBadarg
  let value ← orReturn (getOptional e.value) makeBadarg
  (if e.headers = Term.undefined then pure ()
  else do
    let headers ← orReturn e.headers.toList? makeBadarg
    (if 0 < headers.length then do
      newHeaders headers.length
      let filled ← populateHeaders r 0 headers
      if filled then pure () else throw makeBadarg
    else pure ()))
  let timestamp ← orReturn (getInt64 e.timestamp) makeBadarg
  let l ← locals
  (if l.headers = none ∧ timestamp = 0 then do
    let topic ← getOrCreateTopic r topicName
    let topic ← orReturn topic (makeError "failed to create topic object")
    call (.produce topic partition value key r.code)
    if r.code ≠ 0 then throw (makeErrorCode r.code) else pure ()
  else do
    call (.producev (cStr topicName) partition value key l.headers timestamp r.code)
    if r.code ≠ 0 then throw (makeErrorCode r.code) else releaseHeaders)
  return Term.ok

/-- `enif_produce_sync` -/
def enifProduceSync (clientRef : Term) (e : Event) (r : Replies) : Part Term := do
  let _ ← orReturn (getResource clientRef) makeBadarg
  let topicName ← orReturn (getString e.topicName) makeBadarg
  let partition ← orReturn (getInt e.partition) makeBadarg
  let key ← orReturn (getOptional e.key) makeBadarg
  let value ← orReturn (getOptional e.value) makeBadarg
  (if e.headers = Term.undefined then pure ()
  else do
    let headers ← orReturn e.headers.toList? makeBadarg
    (if 0 < headers.length then do
      newHeaders headers.length
      let filled ← populateHeaders r 0 headers
      if filled then pure () else throw makeBadarg
    else pure ()))
  let timestamp ← orReturn (getInt64 e.timestamp) makeBadarg
  let l ← locals
  (if l.headers = none ∧ timestamp = 0 then do
    let topic ← getOrCreateTopic r topicName
    let topic ← orReturn topic (makeError "failed to create topic object")
    call (.produce topic partition value key r.code)
    if r.code ≠ 0 then throw (makeErrorCode r.code) else pure ()
  else do
    call (.producev (cStr topicName) partition value key l.headers timestamp r.code)
    if r.code ≠ 0 then throw (makeErrorCode r.code) else releaseHeaders)
  call (.flush r.flush)
  if r.flush ≠ 0 then throw (makeErrorCode r.flush) else pure ()
  return Term.ok

/-- What a call leaves: its result, the topic handles of the producer and the calls of librdkafka.
-/
structure Outcome where
  result : Term
  topics : TopicManager
  calls : List RdCall

/-- What the scoped pointer does at a return. -/
def atExit (headers : Option Headers) : List RdCall :=
  if headers.isSome then [.headersDestroy] else []

@[simp] theorem atExit_none : atExit none = [] := rfl

/-- A call of one of the two functions. -/
def outcome (body : Part Term) (topics : TopicManager) : Outcome :=
  let (result, f) := exit body ⟨⟨none, topics⟩, []⟩
  { result
    topics := f.locals.topics
    calls := f.calls ++ atExit f.locals.headers }

/-! ## The flush -/

/-- The last lines of `enif_produce_sync`. -/
def flush (r : Replies) : Part Term := do
  call (.flush r.flush)
  if r.flush ≠ 0 then throw (makeErrorCode r.flush) else pure ()
  return Term.ok

/-- The two texts agree up to the flush. -/
theorem enifProduceSync_eq (clientRef : Term) (e : Event) (r : Replies) :
    enifProduceSync clientRef e r = enifProduce clientRef e r >>= fun _ => flush r := by
  simp only [enifProduceSync, enifProduce, flush, bind_assoc, pure_bind]

/-! ## What the calls are -/

namespace RdCall

/-- The message that a call offers. -/
def message? : RdCall → Option Record
  | .produce topic partition value key _ => some ⟨topic.topic, partition, key, value, [], 0⟩
  | .producev topic partition value key headers timestamp _ =>
    some ⟨topic, partition, key, value, headers.getD [], timestamp⟩
  | _ => none

/-- The call offers a message and librdkafka accepts it. -/
def accepted : RdCall → Bool
  | .produce _ _ _ _ code | .producev _ _ _ _ _ _ code => code = 0
  | _ => false

/-- The call is one of `rd_kafka_produce`. -/
def isProduce : RdCall → Bool
  | .produce _ _ _ _ _ => true
  | _ => false

/-- The call hands a header list over to librdkafka. -/
def takesHeaders : RdCall → Bool
  | .producev _ _ _ _ headers _ code => headers.isSome && code = 0
  | _ => false

def isHeadersNew : RdCall → Bool
  | .headersNew _ => true
  | _ => false

def isHeadersDestroy : RdCall → Bool
  | .headersDestroy => true
  | _ => false

def isFlush : RdCall → Bool
  | .flush _ => true
  | _ => false

end RdCall

/-- Nothing follows the last call, if it occurs only once. -/
theorem eq_nil_of_append_singleton {calls pre post : List RdCall} {c : RdCall} (hc : c ∉ calls)
    (h : calls ++ [c] = pre ++ c :: post) : post = [] := by
  rcases List.eq_nil_or_concat post with rfl | ⟨post, d, rfl⟩
  · rfl
  · have hsplit : calls ++ [c] = (pre ++ c :: post) ++ [d] := by simpa using h
    have hcalls := (List.append_inj' hsplit rfl).1
    exact absurd (hcalls ▸ by simp) hc

/-- The messages offered. -/
def offered (calls : List RdCall) : List Record := calls.filterMap RdCall.message?

/-- How many header lists are allocated, destroyed and handed over to librdkafka. -/
def allocated (calls : List RdCall) : ℕ := calls.countP (·.isHeadersNew)

@[inherit_doc allocated]
def destroyed (calls : List RdCall) : ℕ := calls.countP (·.isHeadersDestroy)

@[inherit_doc allocated]
def handedOver (calls : List RdCall) : ℕ := calls.countP (·.takesHeaders)

section Concat

variable (calls : List RdCall) (c : RdCall)

theorem offered_concat : offered (calls ++ [c]) = offered calls ++ c.message?.toList := by
  rw [offered, List.filterMap_append]
  cases h : c.message? <;> simp [offered, h]

theorem allocated_concat : allocated (calls ++ [c]) = allocated calls + c.isHeadersNew.toNat := by
  cases h : c.isHeadersNew <;> simp [allocated, List.countP_append, h]

theorem destroyed_concat :
    destroyed (calls ++ [c]) = destroyed calls + c.isHeadersDestroy.toNat := by
  cases h : c.isHeadersDestroy <;> simp [destroyed, List.countP_append, h]

theorem handedOver_concat :
    handedOver (calls ++ [c]) = handedOver calls + c.takesHeaders.toNat := by
  cases h : c.takesHeaders <;> simp [handedOver, List.countP_append, h]

theorem offered_atExit (headers : Option Headers) :
    offered (calls ++ atExit headers) = offered calls := by
  cases headers <;> simp [offered, atExit, RdCall.message?]

theorem any_atExit (headers : Option Headers) {p : RdCall → Bool} (hp : p .headersDestroy = false) :
    (calls ++ atExit headers).any p = calls.any p := by
  cases headers <;> simp [atExit, hp]

end Concat

/-- What becomes of header lists and when there is a flush: a header list that is allocated is
handed over to librdkafka with an accepted message or destroyed once, at the end, and only accepted
messages are flushed. -/
structure Disciplined (calls : List RdCall) : Prop where
  owned : allocated calls = destroyed calls + handedOver calls
  once : allocated calls ≤ 1
  last : ∀ pre post, calls = pre ++ .headersDestroy :: post → post = []
  flushed : Trace.AtEach (fun pre call => call.isFlush = true → ∃ c ∈ pre, c.accepted = true) calls

/-- The calls so far: a header list that has been allocated is still there, or has been handed over,
and nothing is flushed. -/
structure Underway (headers : Option Headers) (calls : List RdCall) : Prop where
  owned : allocated calls = handedOver calls + headers.isSome.toNat
  once : allocated calls ≤ 1
  kept : ∀ c ∈ calls, c.isHeadersDestroy = false ∧ c.isFlush = false

namespace Underway

variable {headers : Option Headers} {calls : List RdCall}

theorem destroyed_eq (h : Underway headers calls) : destroyed calls = 0 := by
  refine List.countP_eq_zero.2 fun c hc => ?_
  simp [(h.kept c hc).1]

theorem notMem_headersDestroy (h : Underway headers calls) : .headersDestroy ∉ calls := by
  intro hc
  cases (h.kept _ hc).1

theorem atEach (h : Underway headers calls) :
    Trace.AtEach (fun pre call => call.isFlush = true → ∃ c ∈ pre, c.accepted = true) calls := by
  rintro pre call post rfl hflush
  rw [(h.kept call (by simp)).2] at hflush
  cases hflush

/-- One more call, which allocates no header list. -/
theorem concat (h : Underway headers calls) {c : RdCall} {headers' : Option Headers}
    (hc : c.isHeadersNew = false ∧ c.isHeadersDestroy = false ∧ c.isFlush = false)
    (hheaders : headers.isSome.toNat = c.takesHeaders.toNat + headers'.isSome.toNat) :
    Underway headers' (calls ++ [c]) where
  owned := by
    have howned := h.owned
    rw [allocated_concat, handedOver_concat, hc.1, Bool.toNat_false]
    omega
  once := by
    rw [allocated_concat, hc.1]
    exact h.once
  kept d hd := by
    rcases List.mem_append.1 hd with hd | hd
    · exact h.kept d hd
    · exact List.mem_singleton.1 hd ▸ hc.2

/-- The return, at which the scoped pointer destroys what it holds. -/
theorem disciplined (h : Underway headers calls) : Disciplined (calls ++ atExit headers) := by
  have howned := h.owned
  have honce := h.once
  have hzero := h.destroyed_eq
  cases hheaders : headers.isSome with
  | false =>
    rw [hheaders, Bool.toNat_false] at howned
    rw [atExit, hheaders, if_neg Bool.false_ne_true, List.append_nil]
    refine ⟨by omega, honce, ?_, h.atEach⟩
    rintro pre post rfl
    exact absurd (by simp) h.notMem_headersDestroy
  | true =>
    rw [hheaders, Bool.toNat_true] at howned
    rw [atExit, hheaders, if_pos rfl]
    refine ⟨?_, ?_, fun pre post heq => ?_, Trace.atEach_concat.2 ⟨h.atEach, ?_⟩⟩
    · rw [allocated_concat, destroyed_concat, handedOver_concat]
      change allocated calls + 0 = destroyed calls + 1 + (handedOver calls + 0)
      omega
    · rw [allocated_concat]
      exact honce
    · exact eq_nil_of_append_singleton h.notMem_headersDestroy heq
    · intro hflush
      cases hflush

theorem any_isFlush (h : Underway headers calls) : calls.any (·.isFlush) = false := by
  refine List.any_eq_false.2 fun c hc => ?_
  simp [(h.kept c hc).2]

/-- A flush, after the header list is gone. -/
theorem disciplined_flush (h : Underway none calls) {c : RdCall} (hc : c ∈ calls)
    (haccepted : c.accepted = true) (code : ℤ) : Disciplined (calls ++ [.flush code]) := by
  have hfinal := h.disciplined
  rw [atExit_none, List.append_nil] at hfinal
  refine ⟨?_, ?_, fun pre post heq => ?_, ?_⟩
  · rw [allocated_concat, destroyed_concat, handedOver_concat]
    exact hfinal.owned
  · rw [allocated_concat]
    exact hfinal.once
  · have hmem : RdCall.headersDestroy ∈ calls ++ [.flush code] := heq ▸ by simp
    simp [h.notMem_headersDestroy] at hmem
  · exact Trace.atEach_concat.2 ⟨hfinal.flushed, fun _ => ⟨c, hc, haccepted⟩⟩

end Underway

/-- The calls before a message is offered. -/
structure Prepared (headers : Option Headers) (calls : List RdCall) : Prop
    extends Underway headers calls where
  silent : ∀ c ∈ calls, c.message? = none

namespace Prepared

variable {headers : Option Headers} {calls : List RdCall}

theorem nil : Prepared none [] := ⟨⟨rfl, Nat.zero_le _, by simp⟩, by simp⟩

theorem headersNew (length : ℕ) : Prepared (some []) [.headersNew length] :=
  ⟨⟨rfl, le_refl _, by simp [RdCall.isHeadersDestroy, RdCall.isFlush]⟩, by simp [RdCall.message?]⟩

theorem headerAdd {hs hs' : Headers} (h : Prepared (some hs) calls) (k v : List UInt8) :
    Prepared (some hs') (calls ++ [.headerAdd k v]) where
  toUnderway := h.concat ⟨rfl, rfl, rfl⟩ rfl
  silent c hc := by
    rcases List.mem_append.1 hc with hc | hc
    · exact h.silent c hc
    · exact List.mem_singleton.1 hc ▸ rfl

/-- A header list with other headers. -/
theorem some {hs hs' : Headers} (h : Prepared (some hs) calls) : Prepared (some hs') calls :=
  ⟨⟨h.owned, h.once, h.kept⟩, h.silent⟩

theorem offered_eq (h : Prepared headers calls) : offered calls = [] :=
  List.filterMap_eq_nil_iff.2 h.silent

theorem any_accepted (h : Prepared headers calls) : calls.any (·.accepted) = false := by
  refine List.any_eq_false.2 fun c hc => ?_
  have hsilent := h.silent c hc
  cases c <;> simp_all [RdCall.message?, RdCall.accepted]

theorem any_isProduce (h : Prepared headers calls) : calls.any (·.isProduce) = false := by
  refine List.any_eq_false.2 fun c hc => ?_
  have hsilent := h.silent c hc
  cases c <;> simp_all [RdCall.message?, RdCall.isProduce]

end Prepared

end Traced

end Exrdkafka.Nif
