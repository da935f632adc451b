import Exrdkafka.CacheClient
import Exrdkafka.Producer.Server

/-!
# Producing a message

`Exrdkafka.produce/7` offers a message to librdkafka and handles a full queue by the strategy of the
producer process: the message is appended to the local queue, dropped, or offered again until there
is room. `BackPressure` states that contract for one call.

The call compares the result with the atom `:rd_kafka_resp_err_queue_full`, which `enif_produce`
never returns, so a full queue takes the last branch and the error goes to the caller. The contract
holds of a call exactly when librdkafka's first answer is not a full queue.
-/

namespace Exrdkafka.Api

open GenServer Nif Producer

/-! ## The arguments -/

/-- The arguments of `produce/7` after the client id. -/
structure Args where
  topicName : Term
  partition : Term
  key : Term
  value : Term
  headers0 : Term
  timestamp : Term

/-- One header given as a pair: a pair of binaries is kept, other names and values are converted. -/
def toHeader : Term → Option Term
  | .tuple [.binary k, .binary v] => some (.tuple [.binary k, .binary v])
  | .tuple [k, v] => do
    let k ← Utils.toBinary k
    let v ← Utils.toBinary v
    return .tuple [.binary k, .binary v]
  | _ => none

/-- The elements of `to_headers` on a list; `none` when the conversion raises. -/
def toHeadersList (l : List Term) : Option Term := (l.mapM toHeader).map Term.ofList

/-- `to_headers`; `none` when the conversion raises. -/
def toHeaders : Term → Option Term
  | .map entries => toHeadersList (entries.map fun (k, v) => .tuple [k, v])
  | t => if t = Term.undefined then some Term.undefined else t.toList?.bind toHeadersList

/-- The message a call hands over, once its headers are converted. -/
def Args.event (a : Args) : Option Event :=
  (toHeaders a.headers0).map fun headers =>
    ⟨a.topicName, a.partition, a.key, a.value, headers, a.timestamp⟩

/-! ## The call -/

/-- The producer processes. -/
abbrev Procs := ℕ → Option State

/-- `Producer.queue_event`: a call of the producer process. -/
def queueEvent (procs : Procs) (pid : ℕ) (e : Event) : Term × Procs :=
  match procs pid with
  | none => (Term.error (.atom "not_started"), procs)
  | some s =>
    match handleCall s (.queueEvent e) with
    | .reply r s' _ => (r, Function.update procs pid (some s'))
    | _ => (Term.error (.atom "exception"), procs)

/-- What a call comes to: the value returned, `none` when it raises or is still blocked, the
processes afterwards, and the produce calls of the NIF, in order. -/
structure Outcome where
  reply : Option Term
  procs : Procs
  offers : List Produced

/-- `produce_blocking`, for `fuel` attempts; the `i`-th is answered by `answers i`. -/
def produceBlocking (clientRef : Term) (e : Event) : ℕ → (ℕ → Answer) → Option Term × List Produced
  | 0, _ => (none, [])
  | fuel + 1, answers =>
    let p := enifProduce clientRef e (answers 0)
    if p.result = Term.ok then (some Term.ok, [p])
    else if p.result = queueFullAtom then
      let later := produceBlocking clientRef e fuel fun i => answers (i + 1)
      (later.1, p :: later.2)
    else (some p.result, [p])

/-- `Exrdkafka.produce/7` -/
def produce (table : CacheClient.Table) (procs : Procs) (fuel : ℕ) (clientId : String) (args : Args)
    (answers : ℕ → Answer) : Outcome :=
  match CacheClient.get table clientId with
  | none => ⟨some (Term.error (.atom "err_undefined_client")), procs, []⟩
  | some client =>
    match args.event with
    | none => ⟨none, procs, []⟩
    | some e =>
      let p := enifProduce client.clientRef e (answers 0)
      if p.result = Term.ok then ⟨some Term.ok, procs, [p]⟩
      else if p.result = queueFullAtom then
        let (reply, procs') := queueEvent procs client.clientPid e
        if reply = Term.ok then ⟨some Term.ok, procs', [p]⟩
        else if reply = .atom "drop_records" then ⟨some Term.ok, procs', [p]⟩
        else if reply = .atom "block_calling_process" then
          let later := produceBlocking client.clientRef e fuel fun i => answers (i + 1)
          ⟨later.1, procs', p :: later.2⟩
        else ⟨some reply, procs', [p]⟩
      else ⟨some p.result, procs, [p]⟩

/-! ## The contract -/

/-- The strategies for a full queue. -/
inductive OverflowStrategy where
  | localDiskQueue
  | dropRecords
  | blockCallingProcess
  deriving DecidableEq

/-- The atom a strategy is configured with. -/
def OverflowStrategy.term : OverflowStrategy → Term
  | .localDiskQueue => Producer.localDiskQueue
  | .dropRecords => .atom "drop_records"
  | .blockCallingProcess => .atom "block_calling_process"

/-- The local queue of a process. -/
def queueOf (procs : Procs) (pid : ℕ) : List Payload := (procs pid).elim [] (·.pqueue)

/-- The number of times librdkafka accepted the message. -/
def accepted (o : Outcome) : ℕ := o.offers.countP fun p => p.result = Term.ok

/-- The producer process of a client runs with a strategy. -/
def Runs (procs : Procs) (client : CacheClient.Entry) (strategy : OverflowStrategy) : Prop :=
  ∃ s, procs client.clientPid = some s ∧ s.overflowMethod = strategy.term

/-- The back-pressure contract of one call to the client `client`. -/
structure BackPressure (client : CacheClient.Entry) (procs : Procs) (args : Args)
    (answers : ℕ → Answer) (o : Outcome) : Prop where
  /-- A full queue is never returned. -/
  hidden : o.reply ≠ some queueFullResult
  /-- `:local_disk_queue` appends the message once. -/
  queued : ∀ e, args.event = some e → QueueFull client.clientRef e (answers 0) →
    Runs procs client .localDiskQueue → o.reply = some Term.ok ∧
      o.offers = [enifProduce client.clientRef e (answers 0)] ∧
      queueOf o.procs client.clientPid = queueOf procs client.clientPid ++ [.six e]
  /-- `:drop_records` discards it. -/
  dropped : ∀ e, args.event = some e → QueueFull client.clientRef e (answers 0) →
    Runs procs client .dropRecords → o.reply = some Term.ok ∧
      o.offers = [enifProduce client.clientRef e (answers 0)] ∧
      queueOf o.procs client.clientPid = queueOf procs client.clientPid
  /-- `:block_calling_process` offers it again until it meets another outcome, which is returned. -/
  blocked : ∀ e, args.event = some e → QueueFull client.clientRef e (answers 0) →
    Runs procs client .blockCallingProcess →
      queueOf o.procs client.clientPid = queueOf procs client.clientPid ∧
      o.offers = (List.range o.offers.length).map
        (fun i => enifProduce client.clientRef e (answers i)) ∧
      (∀ i, i + 1 < o.offers.length → QueueFull client.clientRef e (answers i)) ∧
      ∀ r, o.reply = some r → ∃ i, o.offers.length = i + 1 ∧
        ¬ QueueFull client.clientRef e (answers i) ∧
        r = (enifProduce client.clientRef e (answers i)).result
  /-- `:ok` is returned only when the message was accepted once, appended once or dropped. -/
  accounted : o.reply = some Term.ok →
    (accepted o = 1 ∧ queueOf o.procs client.clientPid = queueOf procs client.clientPid) ∨
    (accepted o = 0 ∧ ∃ e, args.event = some e ∧
      queueOf o.procs client.clientPid = queueOf procs client.clientPid ++ [.six e]) ∨
    (accepted o = 0 ∧ Runs procs client .dropRecords ∧
      queueOf o.procs client.clientPid = queueOf procs client.clientPid)

/-- The call hands the message over once and returns what librdkafka answers. -/
theorem produce_eq {table : CacheClient.Table} (procs : Procs) (fuel : ℕ) {clientId : String}
    {client : CacheClient.Entry} (hclient : CacheClient.get table clientId = some client)
    (args : Args) (answers : ℕ → Answer) :
    produce table procs fuel clientId args answers =
      match args.event with
      | none => ⟨none, procs, []⟩
      | some e => ⟨some (enifProduce client.clientRef e (answers 0)).result, procs,
          [enifProduce client.clientRef e (answers 0)]⟩ := by
  unfold produce
  rw [hclient]
  cases args.event with
  | none => rfl
  | some e =>
    have hne := result_ne_queueFullAtom client.clientRef e (answers 0)
    by_cases hok : (enifProduce client.clientRef e (answers 0)).result = Term.ok <;> simp [hok, hne]

/-- **The back-pressure contract.** For every client, whatever the strategy of its process, a call
keeps the contract exactly when librdkafka does not answer the offered message with a full queue. -/
theorem backPressure_iff {table : CacheClient.Table} (procs : Procs) (fuel : ℕ) {clientId : String}
    {client : CacheClient.Entry} (hclient : CacheClient.get table clientId = some client)
    (args : Args) (answers : ℕ → Answer) :
    BackPressure client procs args answers (produce table procs fuel clientId args answers) ↔
      ∀ e, args.event = some e → ¬ QueueFull client.clientRef e (answers 0) := by
  rw [produce_eq procs fuel hclient]
  constructor
  · intro h e he hfull
    apply h.hidden
    simp [he, (result_eq_queueFull_iff ..).2 hfull]
  · intro h
    cases he : args.event with
    | none => refine ⟨by simp, ?_, ?_, ?_, by simp⟩ <;> intro e he' <;> simp [he] at he'
    | some e =>
      refine ⟨?_, fun e' he' hf => absurd hf (h e' he'), fun e' he' hf => absurd hf (h e' he'),
        fun e' he' hf => absurd hf (h e' he'), fun hok => Or.inl ⟨?_, rfl⟩⟩
      · rw [ne_eq, Option.some_inj, result_eq_queueFull_iff]
        exact h e he
      · have hres := Option.some.inj hok
        simp [accepted, hres]

/-- A producer process with the strategy `:local_disk_queue` and an empty queue. -/
def sampleProcs : Procs := fun _ =>
  some ⟨"producer", .ref 0, .undefined, .undefined, localDiskQueue, [], true⟩

/-- A message without key, headers and timestamp. -/
def sampleArgs : Args := ⟨.str "events", .int (-1), .undefined, .str "v", .undefined, .int 0⟩

/-- librdkafka's queue is full: the caller is handed the error and the message is not queued. -/
theorem queueFull_returned : ¬ BackPressure ⟨.ref 0, 1⟩ sampleProcs sampleArgs
    (fun _ => { code := respErrQueueFull })
    (produce CacheClient.sampleTable sampleProcs 1 "producer" sampleArgs
      fun _ => { code := respErrQueueFull }) :=
  fun h => h.hidden rfl

/-- The same call when librdkafka accepts the message. -/
theorem backPressure_iff_sample :
    BackPressure ⟨.ref 0, 1⟩ sampleProcs sampleArgs (fun _ => {})
        (produce CacheClient.sampleTable sampleProcs 1 "producer" sampleArgs fun _ => {}) ↔
      ∀ e, sampleArgs.event = some e → ¬ QueueFull (.ref 0) e {} :=
  backPressure_iff sampleProcs 1 (CacheClient.get_set_self ..) sampleArgs fun _ => {}

end Exrdkafka.Api
