import Exrdkafka.Nif.Message
import Exrdkafka.Nif.Produce

/-!
# From `enif_produce` to the message read back

A message is handed over with explicit sizes. It is read back with explicit sizes as well, except
for the header names, which are read as C strings. Let librdkafka and the broker deliver what was
handed over (`Delivers`); then a message is read back as it was given (`RoundTrip`) exactly when no
header name has a zero byte.
-/

namespace Exrdkafka.Nif

open Term

/-! ## What is given and what is delivered -/

/-- A key or value as an argument: a binary, or `:undefined`. -/
def optionalTerm : Option (List UInt8) → Term
  | none => undefined
  | some b => .binary b

/-- A header list as an argument. -/
def headersTerm (headers : List (List UInt8 × List UInt8)) : Term :=
  ofList (headers.map fun h => .tuple [.binary h.1, .binary h.2])

/-- The message has the key, the value and the headers handed over. The names are stored in full,
and a message handed over without headers has none. -/
structure Delivers (r : Record) (msg : RdMessage) : Prop where
  key : msg.key = r.key
  value : msg.payload = r.value
  headers : msg.headers = if r.headers = [] then none else some r.headers

/-- **The round trip.** The tuple has the key, the value and the headers given; only an empty header
list is read back as `:undefined`. -/
structure RoundTrip (key value : Option (List UInt8)) (headers : List (List UInt8 × List UInt8))
    (m : Message) : Prop where
  key : m.key = key
  value : m.value = value
  headers : m.headers = if headers = [] then none else some headers

/-! ## What is handed over -/

theorem getOptional_optionalTerm (b : Option (List UInt8)) :
    getOptional (optionalTerm b) = some b := by
  cases b <;> rfl

/-- The loop over the headers keeps their names and values, in order. -/
theorem populateHeaders_pairs {headerAdd : Bool} {headers out : List (List UInt8 × List UInt8)}
    (h : populateHeaders headerAdd (headers.map fun h => .tuple [.binary h.1, .binary h.2]) =
      some out) : out = headers := by
  induction headers generalizing out with
  | nil => exact (Option.some.inj h).symm
  | cons p headers ih =>
    cases headerAdd with
    | false => cases h
    | true =>
      obtain ⟨hs, hhs, hout⟩ := Option.bind_eq_some_iff.1 h
      rw [← Option.some.inj hout, ih hhs]

theorem getHeaders_headersTerm {headerAdd : Bool} {headers out : List (List UInt8 × List UInt8)}
    (h : getHeaders headerAdd (headersTerm headers) = some out) : out = headers := by
  have hne : headersTerm headers ≠ undefined := by
    cases headers <;> exact nofun
  rw [getHeaders, if_neg hne, headersTerm, toList?_ofList] at h
  exact populateHeaders_pairs h

/-- The record read from a key, a value and a header list has them unchanged. -/
theorem readArgs_record {clientRef topicName partition timestamp : Term}
    {key value : Option (List UInt8)} {headers : List (List UInt8 × List UInt8)} {headerAdd : Bool}
    {r : Record}
    (h : readArgs clientRef ⟨topicName, partition, optionalTerm key, optionalTerm value,
      headersTerm headers, timestamp⟩ headerAdd = some r) :
    r.key = key ∧ r.value = value ∧ r.headers = headers := by
  unfold readArgs at h
  simp only [getOptional_optionalTerm, Option.bind_eq_bind, Option.bind_eq_some_iff,
    Option.some.injEq] at h
  obtain ⟨_, _, topic, _, part, _, k, rfl, v, rfl, hs, hhs, ts, _, hr⟩ := h
  rw [← Option.some.inj hr]
  exact ⟨rfl, rfl, getHeaders_headersTerm hhs⟩

/-- What a successful call has offered. -/
theorem offered_of_ok {clientRef : Term} {e : Event} {a : Answer}
    (h : (enifProduce clientRef e a).result = Term.ok) :
    ∃ r, (enifProduce clientRef e a).offered = some r ∧
      readArgs clientRef e a.headerAdd = some r := by
  rcases enifProduce_cases clientRef e a with ⟨r, hoffer, hp⟩ | ⟨-, hp | hp⟩
  · exact ⟨r, congrArg Produced.offered hp, (Option.filter_eq_some_iff.1 hoffer).1⟩
  · rw [hp] at h
    exact absurd h makeBadarg_ne_ok
  · rw [hp] at h
    exact absurd h (makeError_ne_ok _)

/-! ## What is read back -/

theorem map_cStr_eq_self_iff (headers : List (List UInt8 × List UInt8)) :
    (headers.map fun (name, value) => (cStr name, value)) = headers ↔
      ∀ p ∈ headers, (0 : UInt8) ∉ p.1 := by
  conv_lhs => rhs; rw [← List.map_id headers]
  rw [List.map_eq_map_iff]
  refine forall₂_congr fun p _ => ?_
  rw [← cStr_eq_self_iff, id_eq, Prod.ext_iff]
  simp

/-- **The round trip, exactly.** For every message with a binary or absent key and value and a list
of pairs of binaries as headers that `enif_produce` accepts, and for every message that librdkafka
delivers of it, the round trip holds exactly when no header name has a zero byte. -/
theorem roundTrip_iff {clientRef topicName partition timestamp : Term}
    {key value : Option (List UInt8)} {headers : List (List UInt8 × List UInt8)} {a : Answer}
    (hok : (enifProduce clientRef ⟨topicName, partition, optionalTerm key, optionalTerm value,
      headersTerm headers, timestamp⟩ a).result = Term.ok)
    {msg : RdMessage}
    (hmsg : ∀ r, (enifProduce clientRef ⟨topicName, partition, optionalTerm key,
      optionalTerm value, headersTerm headers, timestamp⟩ a).offered = some r → Delivers r msg)
    (topic : List UInt8) (part : ℤ) :
    RoundTrip key value headers (makeMessageNif topic part msg) ↔
      ∀ p ∈ headers, (0 : UInt8) ∉ p.1 := by
  obtain ⟨r, hoffered, hread⟩ := offered_of_ok hok
  obtain ⟨rfl, rfl, rfl⟩ := readArgs_record hread
  have hdelivers := hmsg r hoffered
  have hheaders : (makeMessageNif topic part msg).headers =
      if r.headers = [] then none
      else some (r.headers.map fun (name, value) => (cStr name, value)) := by
    show messageHeaders msg = _
    rw [messageHeaders, hdelivers.headers]
    split <;> rfl
  rw [← map_cStr_eq_self_iff]
  refine ⟨fun h => ?_, fun h => ⟨hdelivers.key, hdelivers.value, ?_⟩⟩
  · have heq := hheaders.symm.trans h.headers
    by_cases hnil : r.headers = []
    · rw [hnil]
      rfl
    · rw [if_neg hnil, if_neg hnil] at heq
      exact Option.some.inj heq
  · rw [hheaders, h]

/-- A message that is delivered as it was handed over. -/
def deliveredAs (r : Record) : RdMessage where
  topicName := r.topic
  partition := r.partition
  offset := 0
  key := r.key
  payload := r.value
  headers := if r.headers = [] then none else some r.headers
  timestamp := r.timestamp
  timestampType := .createTime

theorem delivers_deliveredAs (r : Record) : Delivers r (deliveredAs r) := ⟨rfl, rfl, rfl⟩

/-- A message to the topic `events` without key, with an empty value and the headers given. -/
def sampleEvent (headers : List (List UInt8 × List UInt8)) : Event :=
  ⟨str "events", .int (-1), optionalTerm none, optionalTerm (some []), headersTerm headers, .int 0⟩

/-- The header name `a`, zero byte, `b` is read back as `a`. -/
theorem zeroByte_truncates : ∃ r,
    enifProduce (.ref 0) (sampleEvent [([97, 0, 98], [1])]) {} = ⟨Term.ok, some r⟩ ∧
    ¬ RoundTrip none (some []) [([97, 0, 98], [1])] (makeMessageNif r.topic 0 (deliveredAs r)) := by
  refine ⟨⟨utf8 "events", -1, none, some [], [([97, 0, 98], [1])], 0⟩, by decide, fun h => ?_⟩
  have hheaders := h.headers
  revert hheaders
  decide

/-- A message with two headers of one name. -/
theorem roundTrip_iff_sample : ∃ r,
    enifProduce (.ref 0) (sampleEvent [([97], [1]), ([97], [])]) {} = ⟨Term.ok, some r⟩ ∧
    (RoundTrip none (some []) [([97], [1]), ([97], [])] (makeMessageNif r.topic 0 (deliveredAs r)) ↔
      ∀ p ∈ [([97], [1]), ([97], ([] : List UInt8))], (0 : UInt8) ∉ p.1) := by
  have hproduce : enifProduce (.ref 0) (sampleEvent [([97], [1]), ([97], [])]) {} =
      ⟨Term.ok, some ⟨utf8 "events", -1, none, some [], [([97], [1]), ([97], [])], 0⟩⟩ := by
    decide
  have hok := congrArg Produced.result hproduce
  refine ⟨_, hproduce, roundTrip_iff hok (fun r hr => ?_) _ 0⟩
  have hsome := hr.symm.trans (congrArg Produced.offered hproduce)
  rw [Option.some.inj hsome]
  exact delivers_deliveredAs _

end Exrdkafka.Nif
