import Mathlib.Tactic.Tauto
import Exrdkafka.Nif.Utils

/-!
# Offering one message to librdkafka

`enif_produce` reads its argument terms, builds the optional header list and offers one message,
with `rd_kafka_produce` on a topic handle when there is neither a header nor a timestamp and with
`rd_kafka_producev` otherwise. Nothing is offered when an argument is malformed (`badarg`) or when
the topic handle cannot be created; otherwise the result is `:ok` or `{:error, code}` with the
integer code librdkafka refused the message with (`result_cases`).

What librdkafka answers is an input (`Answer`).
-/

namespace Exrdkafka.Nif

open Term

/-- The arguments of `ExrdkafkaNif.produce` after the client. -/
structure Event where
  topicName : Term
  partition : Term
  key : Term
  value : Term
  headers : Term
  timestamp : Term
  deriving DecidableEq

/-- A message as librdkafka is handed it. An absent key or value is a null pointer. -/
structure Record where
  topic : List UInt8
  partition : ℤ
  key : Option (List UInt8)
  value : Option (List UInt8)
  headers : List (List UInt8 × List UInt8)
  timestamp : ℤ
  deriving DecidableEq

/-- What librdkafka does while one message is offered: whether `rd_kafka_header_add` succeeds,
whether `GetOrCreateTopic` finds or creates a handle, and the code of the produce call (`0` when the
message is accepted; on the `rd_kafka_produce` path the code is read with `rd_kafka_last_error`). -/
structure Answer where
  headerAdd : Bool := true
  topicHandle : Bool := true
  code : ℤ := 0
  deriving DecidableEq

/-- `RD_KAFKA_RESP_ERR__QUEUE_FULL` -/
def respErrQueueFull : ℤ := -184

/-- The key or value argument: a binary, or `:undefined` for an absent one. -/
def getOptional (t : Term) : Option (Option (List UInt8)) :=
  match getBinary t with
  | some b => some (some b)
  | none => if t = Term.undefined then some none else none

/-- `populate_headers`: every element must be a pair of binaries. -/
def populateHeaders (headerAdd : Bool) : List Term → Option (List (List UInt8 × List UInt8))
  | [] => some []
  | .tuple [k, v] :: t => do
    let k ← getBinary k
    let v ← getBinary v
    guard headerAdd
    let hs ← populateHeaders headerAdd t
    return (k, v) :: hs
  | _ :: _ => none

/-- The header argument: `:undefined`, or a proper list. The empty list allocates no headers. -/
def getHeaders (headerAdd : Bool) (t : Term) : Option (List (List UInt8 × List UInt8)) :=
  if t = Term.undefined then some [] else t.toList?.bind (populateHeaders headerAdd)

/-- Reading the arguments of `enif_produce`, in the order of the source; `none` is `badarg`. -/
def readArgs (clientRef : Term) (e : Event) (headerAdd : Bool) : Option Record := do
  let _ ← getResource clientRef
  let topic ← getString e.topicName
  let partition ← getInt e.partition
  let key ← getOptional e.key
  let value ← getOptional e.value
  let headers ← getHeaders headerAdd e.headers
  let timestamp ← getInt64 e.timestamp
  return ⟨cStr topic, partition, key, value, headers, timestamp⟩

/-- The outcome of a produce call: the term returned, and the message offered to librdkafka. -/
structure Produced where
  result : Term
  offered : Option Record
  deriving DecidableEq

/-- The message `enif_produce` offers, if it gets that far: the arguments are well formed and,
without headers and timestamp, there is a topic handle. -/
def offer (clientRef : Term) (e : Event) (a : Answer) : Option Record :=
  (readArgs clientRef e a.headerAdd).filter fun r =>
    r.headers ≠ [] ∨ r.timestamp ≠ 0 ∨ a.topicHandle = true

/-- `enif_produce` -/
def enifProduce (clientRef : Term) (e : Event) (a : Answer) : Produced :=
  match readArgs clientRef e a.headerAdd with
  | none => ⟨makeBadarg, none⟩
  | some r =>
    if r.headers = [] ∧ r.timestamp = 0 then
      -- rd_kafka_produce on the handle of the topic
      if a.topicHandle = false then ⟨makeError "failed to create topic object", none⟩
      else if a.code ≠ 0 then ⟨makeErrorCode a.code, some r⟩
      else ⟨Term.ok, some r⟩
    else
      -- rd_kafka_producev
      if a.code ≠ 0 then ⟨makeErrorCode a.code, some r⟩
      else ⟨Term.ok, some r⟩

variable (clientRef : Term) (e : Event) (a : Answer)

/-- Either the message is offered, and the result says whether librdkafka accepted it, or nothing is
offered and the result is one of the two errors of the function itself. -/
theorem enifProduce_cases :
    (∃ r, offer clientRef e a = some r ∧ enifProduce clientRef e a =
      ⟨if a.code = 0 then Term.ok else makeErrorCode a.code, some r⟩) ∨
    (offer clientRef e a = none ∧ (enifProduce clientRef e a = ⟨makeBadarg, none⟩ ∨
      enifProduce clientRef e a = ⟨makeError "failed to create topic object", none⟩)) := by
  unfold offer enifProduce
  cases hr : readArgs clientRef e a.headerAdd with
  | none => simp
  | some r =>
    by_cases hfast : r.headers = [] ∧ r.timestamp = 0
    · obtain ⟨hh, ht⟩ := hfast
      cases htop : a.topicHandle <;> by_cases hc : a.code = 0 <;> simp [Option.filter, hh, ht, hc]
    · have hslow : r.headers ≠ [] ∨ r.timestamp ≠ 0 := by tauto
      by_cases hc : a.code = 0 <;> simp [Option.filter, hfast, hc] <;> tauto

/-- A message that is offered is accepted or refused with librdkafka's code. -/
theorem result_of_offer {r : Record} (h : offer clientRef e a = some r) :
    (enifProduce clientRef e a).result = if a.code = 0 then Term.ok else makeErrorCode a.code := by
  rcases enifProduce_cases clientRef e a with ⟨r', -, hp⟩ | ⟨ho, -⟩
  · rw [hp]
  · simp [ho] at h

/-- Without an offer the result is one of the two errors of the function itself. -/
theorem result_of_no_offer (h : offer clientRef e a = none) :
    (enifProduce clientRef e a).result = makeBadarg ∨
      (enifProduce clientRef e a).result = makeError "failed to create topic object" := by
  rcases enifProduce_cases clientRef e a with ⟨r, ho, -⟩ | ⟨-, hp | hp⟩
  · simp [ho] at h
  · exact Or.inl (by rw [hp])
  · exact Or.inr (by rw [hp])

theorem result_ok_or_error :
    (enifProduce clientRef e a).result = Term.ok ∨
      ∃ reason, (enifProduce clientRef e a).result = Term.error reason := by
  rcases enifProduce_cases clientRef e a with ⟨r, -, hp⟩ | ⟨-, hp | hp⟩
  · by_cases hc : a.code = 0
    · exact Or.inl (by simp [hp, hc])
    · exact Or.inr ⟨.int a.code, by simp [hp, hc, makeErrorCode]⟩
  · exact Or.inr ⟨_, congrArg Produced.result hp⟩
  · exact Or.inr ⟨_, congrArg Produced.result hp⟩

/-- librdkafka refuses the message because its queue is full. -/
def QueueFull : Prop := (offer clientRef e a).isSome ∧ a.code = respErrQueueFull

instance : Decidable (QueueFull clientRef e a) := inferInstanceAs (Decidable (_ ∧ _))

/-- `{:error, -184}`, the term `enif_produce` reports a full queue with. -/
def queueFullResult : Term := makeErrorCode respErrQueueFull

theorem queueFullResult_ne_ok : queueFullResult ≠ Term.ok := makeErrorCode_ne_ok _

theorem result_eq_queueFull_iff :
    (enifProduce clientRef e a).result = queueFullResult ↔ QueueFull clientRef e a := by
  unfold QueueFull queueFullResult
  cases h : offer clientRef e a with
  | none => rcases result_of_no_offer clientRef e a h with hr | hr <;> simp [hr]
  | some r =>
    rw [result_of_offer clientRef e a h]
    by_cases hc : a.code = 0
    · simp [hc, respErrQueueFull, (makeErrorCode_ne_ok _).symm]
    · simp [hc]

/-- `{:error, :rd_kafka_resp_err_queue_full}`, the term the Elixir callers match a full queue with.
-/
def queueFullAtom : Term := Term.error (.atom "rd_kafka_resp_err_queue_full")

/-- `enif_produce` never returns the atom form of the full-queue error: its codes are integers. -/
theorem result_ne_queueFullAtom : (enifProduce clientRef e a).result ≠ queueFullAtom := by
  cases h : offer clientRef e a with
  | none =>
    rcases result_of_no_offer clientRef e a h with hr | hr <;>
      simp [hr, queueFullAtom, makeBadarg, makeError, str]
  | some r =>
    rw [result_of_offer clientRef e a h]
    by_cases hc : a.code = 0
    · simpa [hc, queueFullAtom] using (Term.error_ne_ok _).symm
    · simp [hc, queueFullAtom, makeErrorCode]

end Exrdkafka.Nif
