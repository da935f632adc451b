import Mathlib.Data.Option.Basic
import Exrdkafka.Nif.ProduceSync

/-!
# Producing does not depend on the path

The paths through `enif_produce`, of which there are four: an argument is malformed, the topic has
no handle, and the message is offered with or without headers and a timestamp. `enif_produce_sync`
takes the same path.

* `readHeaders_run`: whatever stops `populate_headers`, the header list is not lost.
* `enifProduce_path`: every call takes one of the paths.
* `pathIndependent`: the three outcomes, which the two functions share, and what becomes of the
  header list.
* `enifProduce_refines`: the result and the message are those of `Nif.enifProduce`.
-/

namespace Exrdkafka.Nif

open EarlyReturn Term

namespace Traced

/-! ## The header list -/

/-- librdkafka takes every header of the list. -/
def Replies.addsHeaders (r : Replies) (headers : Term) : Bool :=
  (List.range ((headers.toList?.map List.length).getD 0)).all r.headerAdd

/-- The element is a pair of binaries. -/
def IsHeader (t : Term) (k v : List UInt8) : Prop :=
  ∃ key value, t = .tuple [key, value] ∧ getBinary key = some k ∧ getBinary value = some v

theorem populateHeaders_of_isHeader {t : Term} {k v : List UInt8} (h : IsHeader t k v) (r : Replies)
    (i : ℕ) (rest : List Term) : populateHeaders r i (t :: rest) = (do
      call (.headerAdd k v)
      if r.headerAdd i then do
        assign fun l => { l with headers := l.headers.map (· ++ [(k, v)]) }
        populateHeaders r (i + 1) rest
      else pure false) := by
  obtain ⟨key, value, rfl, hkey, hvalue⟩ := h
  simp only [populateHeaders, hkey, hvalue]

theorem populateHeaders_of_not_isHeader {t : Term} (h : ∀ k v, ¬ IsHeader t k v) (r : Replies)
    (i : ℕ) (rest : List Term) : populateHeaders r i (t :: rest) = pure false := by
  unfold populateHeaders
  split
  · cases ‹_ :: _ = []›
  · rename_i key value rest' heq
    obtain ⟨rfl, rfl⟩ := List.cons.inj heq
    split
    · next k v hkey hvalue => exact absurd ⟨key, value, rfl, hkey, hvalue⟩ (h k v)
    · rfl
  · rfl

theorem nifPopulateHeaders_of_isHeader {t : Term} {k v : List UInt8} (h : IsHeader t k v)
    (rest : List Term) : Nif.populateHeaders true (t :: rest) =
      (Nif.populateHeaders true rest).map ((k, v) :: ·) := by
  obtain ⟨key, value, rfl, hkey, hvalue⟩ := h
  cases hrest : Nif.populateHeaders true rest <;>
    simp [Nif.populateHeaders, hkey, hvalue, hrest, guard]

theorem nifPopulateHeaders_of_not_isHeader {t : Term} (h : ∀ k v, ¬ IsHeader t k v)
    (headerAdd : Bool) (rest : List Term) : Nif.populateHeaders headerAdd (t :: rest) = none := by
  unfold Nif.populateHeaders
  split
  · cases ‹_ :: _ = []›
  · rename_i key value rest' heq
    obtain ⟨rfl, rfl⟩ := List.cons.inj heq
    cases hkey : getBinary key with
    | none => rfl
    | some k =>
      cases hvalue : getBinary value with
      | none => rfl
      | some v => exact absurd ⟨key, value, rfl, hkey, hvalue⟩ (h k v)
  · rfl

theorem nifPopulateHeaders_false (t : Term) (rest : List Term) :
    Nif.populateHeaders false (t :: rest) = none := by
  by_cases h : ∃ k v, IsHeader t k v
  · obtain ⟨k, v, key, value, rfl, hkey, hvalue⟩ := h
    simp only [Nif.populateHeaders, hkey, hvalue]
    rfl
  · exact nifPopulateHeaders_of_not_isHeader (fun k v hkv => h ⟨k, v, hkv⟩) false rest

/-- `populate_headers` goes through the list up to the first header that is malformed or is refused.
-/
theorem populateHeaders_run (r : Replies) (i : ℕ) (terms : List Term) (hs : Headers)
    (topics : TopicManager) {calls : List RdCall} (hcalls : Prepared (some hs) calls) :
    ∃ filled added calls', populateHeaders r i terms ⟨⟨some hs, topics⟩, calls⟩ =
        .ok filled ⟨⟨some (hs ++ added), topics⟩, calls'⟩ ∧
      Prepared (some (hs ++ added)) calls' ∧
      (filled = true → Nif.populateHeaders true terms = some added ∧
        ∀ j < terms.length, r.headerAdd (i + j) = true) ∧
      (filled = false → Nif.populateHeaders true terms = none ∨
        ∃ j < terms.length, r.headerAdd (i + j) = false) := by
  induction terms generalizing i hs calls with
  | nil =>
    exact ⟨true, [], calls, by simp [populateHeaders], hcalls.some, by simp [Nif.populateHeaders]⟩
  | cons t rest ih =>
    by_cases h : ∃ k v, IsHeader t k v
    · obtain ⟨k, v, hkv⟩ := h
      rw [populateHeaders_of_isHeader hkv, bind_ok (call_apply _)]
      cases hadd : r.headerAdd i with
      | false =>
        refine ⟨false, [], calls ++ [.headerAdd k v], by simp, hcalls.headerAdd k v, by simp,
          fun _ => Or.inr ⟨0, by simp, by simpa using hadd⟩⟩
      | true =>
        obtain ⟨filled, added, calls', hrun, hcalls', htrue, hfalse⟩ :=
          ih (i + 1) (hs ++ [(k, v)]) (hcalls.headerAdd k v)
        refine ⟨filled, (k, v) :: added, calls', ?_, hcalls'.some, ?_, ?_⟩
        · rw [if_pos rfl, bind_ok (assign_apply _)]
          simpa using hrun
        · intro hfilled
          obtain ⟨hrest, hall⟩ := htrue hfilled
          refine ⟨by rw [nifPopulateHeaders_of_isHeader hkv, hrest]; rfl, ?_⟩
          rintro (_ | j) hj
          · exact hadd
          · have hnext := hall j (Nat.lt_of_succ_lt_succ hj)
            rwa [Nat.add_right_comm] at hnext
        · intro hfilled
          refine (hfalse hfilled).imp (fun hrest => ?_) ?_
          · rw [nifPopulateHeaders_of_isHeader hkv, hrest]
            rfl
          · rintro ⟨j, hj, hrefused⟩
            exact ⟨j + 1, Nat.succ_lt_succ hj, by rwa [Nat.add_right_comm] at hrefused⟩
    · have hnot : ∀ k v, ¬ IsHeader t k v := fun k v hkv => h ⟨k, v, hkv⟩
      rw [populateHeaders_of_not_isHeader hnot]
      refine ⟨false, [], calls, by simp, hcalls.some, by simp, fun _ => Or.inl ?_⟩
      exact nifPopulateHeaders_of_not_isHeader hnot true rest

/-- The part of the two functions that reads the headers. -/
def readHeaders (r : Replies) (headers : Term) : Part Unit :=
  if headers = Term.undefined then pure ()
  else do
    let headers ← orReturn headers.toList? makeBadarg
    (if 0 < headers.length then do
      newHeaders headers.length
      let filled ← populateHeaders r 0 headers
      if filled then pure () else throw makeBadarg
    else pure ())

theorem addsHeaders_of_toList {r : Replies} {headers : Term} {terms : List Term}
    (h : headers.toList? = some terms) :
    r.addsHeaders headers = true ↔ ∀ i < terms.length, r.headerAdd i = true := by
  simp [Replies.addsHeaders, h]

/-- The headers are read, or a malformed or refused one is met. -/
theorem readHeaders_run (r : Replies) (headers : Term) (topics : TopicManager) :
    ∃ list calls, Prepared list calls ∧
      ((readHeaders r headers ⟨⟨none, topics⟩, []⟩ = .error makeBadarg ⟨⟨list, topics⟩, calls⟩ ∧
          getHeaders (r.addsHeaders headers) headers = none) ∨
        (readHeaders r headers ⟨⟨none, topics⟩, []⟩ = .ok () ⟨⟨list, topics⟩, calls⟩ ∧
          getHeaders (r.addsHeaders headers) headers = some (list.getD []) ∧
          (list = none ↔ list.getD [] = []))) := by
  by_cases hundefined : headers = Term.undefined
  · exact ⟨none, [], .nil, Or.inr ⟨by simp [readHeaders, hundefined],
      by simp [getHeaders, hundefined], by simp⟩⟩
  cases hterms : headers.toList? with
  | none =>
    refine ⟨none, [], .nil, Or.inl ⟨?_, by simp [getHeaders, hundefined, hterms]⟩⟩
    rw [readHeaders, if_neg hundefined, hterms, orReturn_none, bind_error (throw_apply _)]
  | some terms =>
    have hget : getHeaders (r.addsHeaders headers) headers =
        Nif.populateHeaders (r.addsHeaders headers) terms := by
      simp [getHeaders, hundefined, hterms]
    rw [readHeaders, if_neg hundefined, hterms, orReturn_some, pure_bind, hget]
    cases terms with
    | nil =>
      exact ⟨none, [], .nil, Or.inr ⟨by simp, by simp [Nif.populateHeaders], by simp⟩⟩
    | cons t rest =>
      obtain ⟨filled, added, calls, hrun, hcalls, htrue, hfalse⟩ :=
        populateHeaders_run r 0 (t :: rest) [] topics (.headersNew (t :: rest).length)
      have hnew : newHeaders (t :: rest).length ⟨⟨none, topics⟩, []⟩ =
          .ok () ⟨⟨some [], topics⟩, [.headersNew (t :: rest).length]⟩ := rfl
      refine ⟨some added, calls, hcalls, ?_⟩
      rw [if_pos (by simp), bind_ok hnew, bind_ok hrun]
      cases filled with
      | true =>
        obtain ⟨hread, hall⟩ := htrue rfl
        have hadd : r.addsHeaders headers = true :=
          (addsHeaders_of_toList hterms).2 fun i hi => by simpa using hall i hi
        refine Or.inr ⟨by simp, by rw [hadd]; exact hread, ?_⟩
        obtain ⟨k, v, hs, rfl⟩ : ∃ k v hs, added = (k, v) :: hs := by
          by_cases h : ∃ k v, IsHeader t k v
          · obtain ⟨k, v, hkv⟩ := h
            rw [nifPopulateHeaders_of_isHeader hkv] at hread
            obtain ⟨hs, -, rfl⟩ := Option.map_eq_some_iff.1 hread
            exact ⟨k, v, hs, rfl⟩
          · rw [nifPopulateHeaders_of_not_isHeader fun k v hkv => h ⟨k, v, hkv⟩] at hread
            cases hread
        simp
      | false =>
        refine Or.inl ⟨by simp, ?_⟩
        cases hadd : r.addsHeaders headers with
        | false => exact nifPopulateHeaders_false t rest
        | true =>
          refine (hfalse rfl).resolve_right ?_
          rintro ⟨j, hj, hrefused⟩
          have htaken := (addsHeaders_of_toList hterms).1 hadd j hj
          rw [Nat.zero_add, htaken] at hrefused
          cases hrefused

/-! ## The paths through `enif_produce` -/

/-- A message without headers and timestamp. -/
def Plain (record : Record) : Prop := record.headers = [] ∧ record.timestamp = 0

instance (record : Record) : Decidable (Plain record) := inferInstanceAs (Decidable (_ ∧ _))

/-- The call that a lookup of a topic makes when the name is new. -/
def newTopic (topics : TopicManager) (name : List UInt8) : List RdCall :=
  if name ∉ topics.topics then [.topicNew (cStr name)] else []

/-- The return after the produce call. -/
def answered (code : ℤ) (f : Frame Locals RdCall) :
    EStateM.Result Term (Frame Locals RdCall) Term :=
  if code = 0 then .ok Term.ok f else .error (makeErrorCode code) f

section Paths

variable (clientRef : Term) (e : Event) (r : Replies) (topics : TopicManager)

/-- The paths through `enif_produce`, with what they return and leave. -/
inductive Path : EStateM.Result Term (Frame Locals RdCall) Term → Prop
  | badarg {headers : Option Headers} {calls : List RdCall}
      (hread : readArgs clientRef e (r.addsHeaders e.headers) = none)
      (hcalls : Prepared headers calls) :
      Path (.error makeBadarg ⟨⟨headers, topics⟩, calls⟩)
  | noHandle {record : Record} {name : List UInt8} {manager : TopicManager}
      (hread : readArgs clientRef e (r.addsHeaders e.headers) = some record)
      (hname : getString e.topicName = some name) (hplain : Plain record)
      (hhandle : topics.getOrCreateTopic name r.topicNew = (manager, none))
      {calls : List RdCall} (hcalls : Prepared none calls) :
      Path (.error (makeError "failed to create topic object") ⟨⟨none, manager⟩, calls⟩)
  | produce {record : Record} {name : List UInt8} {manager : TopicManager} {topic : TopicHandle}
      (hread : readArgs clientRef e (r.addsHeaders e.headers) = some record)
      (hname : getString e.topicName = some name) (hplain : Plain record)
      (hhandle : topics.getOrCreateTopic name r.topicNew = (manager, some topic))
      {calls : List RdCall} (hcalls : Prepared none calls) :
      Path (answered r.code ⟨⟨none, manager⟩,
        calls ++ [.produce topic record.partition record.value record.key r.code]⟩)
  | producev {record : Record} {headers : Option Headers} {calls : List RdCall}
      (hread : readArgs clientRef e (r.addsHeaders e.headers) = some record)
      (hplain : ¬ Plain record) (hcalls : Prepared headers calls)
      (hheaders : headers.getD [] = record.headers) :
      Path (answered r.code ⟨⟨if r.code = 0 then none else headers, topics⟩, calls ++
        [.producev record.topic record.partition record.value record.key headers record.timestamp
          r.code]⟩)

theorem Prepared.newTopic {calls : List RdCall} (h : Prepared none calls) (name : List UInt8) :
    Prepared none (calls ++ newTopic topics name) := by
  unfold Traced.newTopic
  split
  · refine ⟨h.concat ⟨rfl, rfl, rfl⟩ rfl, fun c hc => ?_⟩
    rcases List.mem_append.1 hc with hc | hc
    · exact h.silent c hc
    · exact List.mem_singleton.1 hc ▸ rfl
  · rwa [List.append_nil]

theorem getOrCreateTopic_run (name : List UInt8) (headers : Option Headers) (calls : List RdCall) :
    getOrCreateTopic r name ⟨⟨headers, topics⟩, calls⟩ =
      .ok (topics.getOrCreateTopic name r.topicNew).2
        ⟨⟨headers, (topics.getOrCreateTopic name r.topicNew).1⟩,
          calls ++ newTopic topics name⟩ := by
  rw [getOrCreateTopic, bind_ok locals_apply]
  by_cases hname : name ∉ topics.topics
  · simp only [hname, not_false_eq_true, if_true, newTopic]
    rfl
  · simp only [hname, if_false, newTopic, List.append_nil]
    rfl

theorem enifProduce_path :
    Path clientRef e r topics (enifProduce clientRef e r ⟨⟨none, topics⟩, []⟩) := by
  unfold enifProduce
  cases hclient : getResource clientRef with
  | none => exact .badarg (by simp [readArgs, hclient]) .nil
  | some id =>
  rw [orReturn_some, pure_bind]
  cases hname : getString e.topicName with
  | none => exact .badarg (by simp [readArgs, hclient, hname]) .nil
  | some name =>
  rw [orReturn_some, pure_bind]
  cases hpartition : getInt e.partition with
  | none => exact .badarg (by simp [readArgs, hclient, hname, hpartition]) .nil
  | some partition =>
  rw [orReturn_some, pure_bind]
  cases hkey : getOptional e.key with
  | none => exact .badarg (by simp [readArgs, hclient, hname, hpartition, hkey]) .nil
  | some key =>
  rw [orReturn_some, pure_bind]
  cases hvalue : getOptional e.value with
  | none => exact .badarg (by simp [readArgs, hclient, hname, hpartition, hkey, hvalue]) .nil
  | some value =>
  rw [orReturn_some, pure_bind]
  have hread : readArgs clientRef e (r.addsHeaders e.headers) =
      (getHeaders (r.addsHeaders e.headers) e.headers).bind fun headers =>
        (getInt64 e.timestamp).map fun timestamp =>
          ⟨cStr name, partition, key, value, headers, timestamp⟩ := by
    simp only [readArgs, hclient, hname, hpartition, hkey, hvalue, Option.bind_eq_bind,
      Option.bind_some, Option.map_eq_bind]
    rfl
  obtain ⟨list, calls, hcalls, ⟨hrun, hheaders⟩ | ⟨hrun, hheaders, hempty⟩⟩ :=
    readHeaders_run r e.headers topics
  · change Path clientRef e r topics ((readHeaders r e.headers >>= _) _)
    rw [bind_error hrun]
    exact .badarg (by rw [hread, hheaders]; rfl) hcalls
  change Path clientRef e r topics ((readHeaders r e.headers >>= _) _)
  rw [bind_ok hrun]
  cases htimestamp : getInt64 e.timestamp with
  | none => exact .badarg (by rw [hread, hheaders, htimestamp]; rfl) hcalls
  | some timestamp =>
  rw [orReturn_some, pure_bind, bind_ok locals_apply]
  have hrecord : readArgs clientRef e (r.addsHeaders e.headers) =
      some ⟨cStr name, partition, key, value, list.getD [], timestamp⟩ := by
    rw [hread, hheaders, htimestamp]
    rfl
  by_cases hplain : list = none ∧ timestamp = 0
  · obtain ⟨rfl, rfl⟩ := hplain
    rw [if_pos ⟨rfl, rfl⟩, bind_assoc, bind_ok (getOrCreateTopic_run r topics name none calls)]
    have htopic := hcalls.newTopic topics name
    cases hhandle : topics.getOrCreateTopic name r.topicNew with
    | mk manager topic =>
    cases topic with
    | none => exact .noHandle hrecord hname ⟨rfl, rfl⟩ hhandle htopic
    | some topic =>
      have hpath : Path clientRef e r topics _ :=
        .produce hrecord hname ⟨rfl, rfl⟩ hhandle htopic
      rw [bind_assoc, orReturn_some, pure_bind, bind_assoc, bind_ok (call_apply _)]
      by_cases hcode : r.code = 0
      · rw [answered, if_pos hcode] at hpath
        rwa [if_neg (not_not.2 hcode), pure_bind]
      · rw [answered, if_neg hcode] at hpath
        rwa [if_pos hcode, bind_error (throw_apply _)]
  · have hslow : ¬ Plain ⟨cStr name, partition, key, value, list.getD [], timestamp⟩ :=
      fun hp => hplain ⟨hempty.2 hp.1, hp.2⟩
    have hpath : Path clientRef e r topics _ := .producev hrecord hslow hcalls rfl
    rw [if_neg hplain, bind_assoc, bind_ok (call_apply _)]
    by_cases hcode : r.code = 0
    · rw [answered, if_pos hcode, if_pos hcode] at hpath
      rw [if_neg (not_not.2 hcode), releaseHeaders, bind_ok (assign_apply _)]
      exact hpath
    · rw [answered, if_neg hcode, if_neg hcode] at hpath
      rwa [if_pos hcode, bind_error (throw_apply _)]

end Paths

/-! ## What the two functions have in common -/

theorem outcome_of_ok {body : Part Term} {topics : TopicManager} {t : Term}
    {f : Frame Locals RdCall} (h : body ⟨⟨none, topics⟩, []⟩ = .ok t f) :
    outcome body topics = ⟨t, f.locals.topics, f.calls ++ atExit f.locals.headers⟩ := by
  simp only [outcome, exit, h]

theorem outcome_of_error {body : Part Term} {topics : TopicManager} {t : Term}
    {f : Frame Locals RdCall} (h : body ⟨⟨none, topics⟩, []⟩ = .error t f) :
    outcome body topics = ⟨t, f.locals.topics, f.calls ++ atExit f.locals.headers⟩ := by
  simp only [outcome, exit, h]

section Agreement

variable (clientRef : Term) (e : Event) (r : Replies) (topics : TopicManager)

/-- Where `enif_produce` returns early, so does `enif_produce_sync`. -/
theorem outcome_sync_of_error {t : Term} {f : Frame Locals RdCall}
    (h : enifProduce clientRef e r ⟨⟨none, topics⟩, []⟩ = .error t f) :
    outcome (enifProduceSync clientRef e r) topics =
      ⟨t, f.locals.topics, f.calls ++ atExit f.locals.headers⟩ := by
  rw [enifProduceSync_eq]
  exact outcome_of_error (bind_error h)

/-- Where `enif_produce` returns `:ok`, `enif_produce_sync` flushes. -/
theorem outcome_sync_of_ok {t : Term} {topics' : TopicManager} {calls : List RdCall}
    (h : enifProduce clientRef e r ⟨⟨none, topics⟩, []⟩ = .ok t ⟨⟨none, topics'⟩, calls⟩) :
    outcome (enifProduceSync clientRef e r) topics =
      ⟨if r.flush = 0 then Term.ok else makeErrorCode r.flush, topics',
        calls ++ [.flush r.flush]⟩ := by
  have hbind : enifProduceSync clientRef e r ⟨⟨none, topics⟩, []⟩ =
      flush r ⟨⟨none, topics'⟩, calls⟩ := by
    rw [enifProduceSync_eq]
    exact bind_ok h
  by_cases hflush : r.flush = 0
  · have hrun : flush r ⟨⟨none, topics'⟩, calls⟩ =
        .ok Term.ok ⟨⟨none, topics'⟩, calls ++ [.flush r.flush]⟩ := by
      rw [flush, bind_ok (call_apply _), if_neg (not_not.2 hflush)]
      rfl
    rw [outcome_of_ok (hbind.trans hrun), if_pos hflush]
    simp
  · have hrun : flush r ⟨⟨none, topics'⟩, calls⟩ =
        .error (makeErrorCode r.flush) ⟨⟨none, topics'⟩, calls ++ [.flush r.flush]⟩ := by
      rw [flush, bind_ok (call_apply _), if_pos hflush]
      exact bind_error (throw_apply _)
    rw [outcome_of_error (hbind.trans hrun), if_neg hflush]
    simp

/-- The producer has a handle for the topic of the message, or gets one. -/
def HasHandle : Prop :=
  ∀ name, getString e.topicName = some name → (topics.getOrCreateTopic name r.topicNew).2 ≠ none

/-- The three outcomes that the two functions share. -/
inductive Agree (p s : Outcome) : Prop
  | badarg (hread : readArgs clientRef e (r.addsHeaders e.headers) = none)
      (hresult : p.result = makeBadarg ∧ s.result = makeBadarg)
      (hoffered : offered p.calls = [] ∧ offered s.calls = [])
  | noHandle {record : Record}
      (hread : readArgs clientRef e (r.addsHeaders e.headers) = some record) (hplain : Plain record)
      (hhandle : ¬ HasHandle e r topics)
      (hresult : p.result = makeError "failed to create topic object" ∧
        s.result = makeError "failed to create topic object")
      (hoffered : offered p.calls = [] ∧ offered s.calls = [])
  | offered {record : Record}
      (hread : readArgs clientRef e (r.addsHeaders e.headers) = some record)
      (hhandle : Plain record → HasHandle e r topics)
      (hoffered : offered p.calls = [record] ∧ offered s.calls = [record])
      (hcall : p.calls.any (·.isProduce) = decide (Plain record) ∧
        s.calls.any (·.isProduce) = decide (Plain record))
      (hp : p.result = if r.code = 0 then Term.ok else makeErrorCode r.code)
      (hs : s.result = if r.code ≠ 0 then makeErrorCode r.code
        else if r.flush = 0 then Term.ok else makeErrorCode r.flush)

/-- **What producing is**, whichever of the two functions and of the two calls is used. -/
structure PathIndependent (p s : Outcome) : Prop where
  agree : Agree clientRef e r topics p s
  topics : p.topics = s.topics
  produce : Disciplined p.calls
  produceSync : Disciplined s.calls
  noFlush : p.calls.any (·.isFlush) = false
  flush : s.calls.any (·.isFlush) = p.calls.any (·.accepted)
  nulls : ∀ record, readArgs clientRef e (r.addsHeaders e.headers) = some record →
    (record.key = none ↔ e.key = Term.undefined) ∧ (record.value = none ↔ e.value = Term.undefined)

variable {clientRef e r topics}

theorem readArgs_eq_some {headerAdd : Bool} {record : Record}
    (hread : readArgs clientRef e headerAdd = some record) :
    (getString e.topicName).map cStr = some record.topic ∧ getOptional e.key = some record.key ∧
      getOptional e.value = some record.value := by
  simp only [readArgs, Option.bind_eq_bind, Option.bind_eq_some_iff, Option.pure_def,
    Option.some.injEq] at hread
  obtain ⟨_, -, _, hname, _, -, _, hkey, _, hvalue, _, -, _, -, rfl⟩ := hread
  exact ⟨by rw [hname]; rfl, hkey, hvalue⟩

/-- A key or value is null exactly when it is given as `:undefined`. -/
theorem eq_none_iff_of_getOptional {t : Term} {value : Option (List UInt8)}
    (h : getOptional t = some value) : value = none ↔ t = Term.undefined := by
  unfold getOptional at h
  split at h
  · next bytes hbytes =>
    obtain rfl := Option.some.inj h
    refine iff_of_false (by simp) ?_
    rintro rfl
    cases hbytes
  · split_ifs at h with hundefined
    exact iff_of_true (Option.some.inj h).symm hundefined

theorem nulls_of_readArgs {headerAdd : Bool} (record : Record)
    (hread : readArgs clientRef e headerAdd = some record) :
    (record.key = none ↔ e.key = Term.undefined) ∧
      (record.value = none ↔ e.value = Term.undefined) := by
  obtain ⟨-, hkey, hvalue⟩ := readArgs_eq_some hread
  exact ⟨eq_none_iff_of_getOptional hkey, eq_none_iff_of_getOptional hvalue⟩

/-- Both functions have returned early, from the same place. -/
theorem PathIndependent.of_error {t : Term} {f : Frame Locals RdCall}
    (h : enifProduce clientRef e r ⟨⟨none, topics⟩, []⟩ = .error t f)
    (hcalls : Underway f.locals.headers f.calls) (haccepted : f.calls.any (·.accepted) = false)
    (hagree : Agree clientRef e r topics
      ⟨t, f.locals.topics, f.calls ++ atExit f.locals.headers⟩
      ⟨t, f.locals.topics, f.calls ++ atExit f.locals.headers⟩) :
    PathIndependent clientRef e r topics (outcome (enifProduce clientRef e r) topics)
      (outcome (enifProduceSync clientRef e r) topics) := by
  rw [outcome_of_error h, outcome_sync_of_error _ _ _ _ h]
  have hflush : (f.calls ++ atExit f.locals.headers).any (·.isFlush) = false :=
    (any_atExit _ _ rfl).trans hcalls.any_isFlush
  refine ⟨hagree, rfl, hcalls.disciplined, hcalls.disciplined, hflush, ?_, nulls_of_readArgs⟩
  rw [hflush, any_atExit _ _ rfl, haccepted]

/-- librdkafka has accepted the message. -/
theorem PathIndependent.of_ok {topics' : TopicManager} {calls : List RdCall} {c : RdCall}
    (h : enifProduce clientRef e r ⟨⟨none, topics⟩, []⟩ =
      .ok Term.ok ⟨⟨none, topics'⟩, calls ++ [c]⟩)
    (hcalls : Underway none (calls ++ [c])) (haccepted : c.accepted = true) (hcode : r.code = 0)
    {record : Record} (hread : readArgs clientRef e (r.addsHeaders e.headers) = some record)
    (hhandle : Plain record → HasHandle e r topics) (hoffered : offered (calls ++ [c]) = [record])
    (hcall : (calls ++ [c]).any (·.isProduce) = decide (Plain record)) :
    PathIndependent clientRef e r topics (outcome (enifProduce clientRef e r) topics)
      (outcome (enifProduceSync clientRef e r) topics) := by
  have hc : c ∈ calls ++ [c] := by simp
  have hdisciplined := hcalls.disciplined
  rw [outcome_of_ok h, outcome_sync_of_ok _ _ _ _ h]
  rw [atExit_none, List.append_nil] at hdisciplined ⊢
  refine ⟨.offered hread hhandle ⟨hoffered, ?_⟩ ⟨hcall, ?_⟩ (if_pos hcode).symm ?_, rfl,
    hdisciplined, hcalls.disciplined_flush hc haccepted r.flush, hcalls.any_isFlush, ?_,
    nulls_of_readArgs⟩
  · rw [offered_concat, hoffered]
    rfl
  · rw [List.any_append, hcall]
    simp [RdCall.isProduce]
  · rw [if_neg (not_not.2 hcode)]
  · simp [RdCall.isFlush, haccepted]

/-- A message has been offered, after which the header list is gone if it was accepted. -/
theorem PathIndependent.of_offer {headers : Option Headers} {topics' : TopicManager}
    {calls : List RdCall} {c : RdCall} {record : Record} (hcalls : Prepared headers calls)
    (hread : readArgs clientRef e (r.addsHeaders e.headers) = some record)
    (hhandle : Plain record → HasHandle e r topics) (hmessage : c.message? = some record)
    (hc : c.isHeadersNew = false ∧ c.isHeadersDestroy = false ∧ c.isFlush = false)
    (haccepted : c.accepted = decide (r.code = 0))
    (htakes : c.takesHeaders = (headers.isSome && decide (r.code = 0)))
    (hcall : c.isProduce = decide (Plain record))
    (h : enifProduce clientRef e r ⟨⟨none, topics⟩, []⟩ =
      answered r.code ⟨⟨if r.code = 0 then none else headers, topics'⟩, calls ++ [c]⟩) :
    PathIndependent clientRef e r topics (outcome (enifProduce clientRef e r) topics)
      (outcome (enifProduceSync clientRef e r) topics) := by
  have hoffered : offered (calls ++ [c]) = [record] := by
    rw [offered_concat, hcalls.offered_eq, hmessage]
    rfl
  have hproduce : (calls ++ [c]).any (·.isProduce) = decide (Plain record) := by
    simp [hcalls.any_isProduce, hcall]
  by_cases hcode : r.code = 0
  · rw [answered, if_pos hcode, if_pos hcode] at h
    have hunderway : Underway none (calls ++ [c]) :=
      hcalls.concat hc (by simp [htakes, hcode])
    exact .of_ok h hunderway (by simp [haccepted, hcode]) hcode hread hhandle hoffered hproduce
  · rw [answered, if_neg hcode, if_neg hcode] at h
    have hunderway : Underway headers (calls ++ [c]) :=
      hcalls.concat hc (by simp [htakes, hcode])
    have hoffered' := (offered_atExit (calls ++ [c]) headers).trans hoffered
    have hproduce' := (any_atExit (calls ++ [c]) headers (p := RdCall.isProduce) rfl).trans hproduce
    refine .of_error h hunderway (by simp [hcalls.any_accepted, haccepted, hcode]) ?_
    exact .offered hread hhandle ⟨hoffered', hoffered'⟩ ⟨hproduce', hproduce'⟩ (if_neg hcode).symm
      (if_pos hcode).symm

end Agreement

/-- **Producing is path-independent and all-or-nothing.** -/
theorem pathIndependent (clientRef : Term) (e : Event) (r : Replies) (topics : TopicManager) :
    PathIndependent clientRef e r topics (outcome (enifProduce clientRef e r) topics)
      (outcome (enifProduceSync clientRef e r) topics) := by
  have hpath := enifProduce_path clientRef e r topics
  generalize hrun : enifProduce clientRef e r ⟨⟨none, topics⟩, []⟩ = result at hpath
  cases hpath with
  | @badarg headers calls hread hcalls =>
    have hoffered := (offered_atExit calls headers).trans hcalls.offered_eq
    exact .of_error hrun hcalls.toUnderway hcalls.any_accepted
      (.badarg hread ⟨rfl, rfl⟩ ⟨hoffered, hoffered⟩)
  | @noHandle record name manager hread hname hplain hhandle calls hcalls =>
    have hoffered := (offered_atExit calls none).trans hcalls.offered_eq
    exact .of_error hrun hcalls.toUnderway hcalls.any_accepted
      (.noHandle hread hplain (fun h => h name hname (by rw [hhandle])) ⟨rfl, rfl⟩
        ⟨hoffered, hoffered⟩)
  | @produce record name manager topic hread hname hplain hhandle calls hcalls =>
    have hmessage :
        (RdCall.produce topic record.partition record.value record.key r.code).message? =
          some record := by
      obtain ⟨hrecord, -⟩ := readArgs_eq_some hread
      rw [hname] at hrecord
      have htopic : topic.topic = record.topic :=
        (TopicManager.topic_of_getOrCreateTopic hhandle).trans (Option.some.inj hrecord)
      rw [RdCall.message?, htopic, ← hplain.1, ← hplain.2]
    have hrun' : enifProduce clientRef e r ⟨⟨none, topics⟩, []⟩ =
        answered r.code ⟨⟨if r.code = 0 then none else none, manager⟩, calls ++
          [.produce topic record.partition record.value record.key r.code]⟩ := by
      rwa [ite_self]
    have hhas : HasHandle e r topics := fun name' hname' => by
      rw [Option.some.inj (hname'.symm.trans hname), hhandle]
      simp
    exact .of_offer hcalls hread (fun _ => hhas) hmessage ⟨rfl, rfl, rfl⟩ rfl rfl
      (by simp [RdCall.isProduce, hplain]) hrun'
  | @producev record headers calls hread hplain hcalls hheaders =>
    have hmessage : (RdCall.producev record.topic record.partition record.value record.key headers
        record.timestamp r.code).message? = some record := by
      rw [RdCall.message?, hheaders]
    exact .of_offer hcalls hread (fun h => absurd h hplain) hmessage ⟨rfl, rfl, rfl⟩ rfl rfl
      (by simp [RdCall.isProduce, hplain]) hrun

/-! ## The message and the result -/

/-- What librdkafka answers, without the calls. -/
def Replies.answer (r : Replies) (topics : TopicManager) (e : Event) : Answer where
  headerAdd := r.addsHeaders e.headers
  topicHandle := ((getString e.topicName).map fun name =>
    (topics.getOrCreateTopic name r.topicNew).2.isSome).getD true
  code := r.code

theorem topicHandle_answer (r : Replies) (topics : TopicManager) (e : Event) :
    (r.answer topics e).topicHandle = true ↔ HasHandle e r topics := by
  cases hname : getString e.topicName with
  | none => simp [Replies.answer, HasHandle, hname]
  | some name => simp [Replies.answer, HasHandle, hname, Option.isSome_iff_ne_none]

/-- The calls of `enif_produce` come to the message and the result of `Nif.enifProduce`. -/
theorem enifProduce_refines (clientRef : Term) (e : Event) (r : Replies) (topics : TopicManager) :
    (outcome (enifProduce clientRef e r) topics).result =
        (Nif.enifProduce clientRef e (r.answer topics e)).result ∧
      offered (outcome (enifProduce clientRef e r) topics).calls =
        (Nif.enifProduce clientRef e (r.answer topics e)).offered.toList := by
  have hanswer : (r.answer topics e).headerAdd = r.addsHeaders e.headers := rfl
  have hcode : (r.answer topics e).code = r.code := rfl
  rcases (pathIndependent clientRef e r topics).agree with
    ⟨hread, hresult, hoffered⟩ | ⟨hread, hplain, hhandle, hresult, hoffered⟩ |
    ⟨hread, hhandle, hoffered, -, hp, -⟩
  · rw [hresult.1, hoffered.1]
    simp [Nif.enifProduce, hanswer, hread]
  · have htopic := Bool.of_not_eq_true (mt (topicHandle_answer r topics e).1 hhandle)
    rw [hresult.1, hoffered.1]
    simp [Nif.enifProduce, hanswer, hread, hplain.1, hplain.2, htopic]
  · rename_i record
    rw [hp, hoffered.1]
    by_cases hplain : Plain record
    · have htopic := (topicHandle_answer r topics e).2 (hhandle hplain)
      by_cases hzero : r.code = 0 <;>
        simp [Nif.enifProduce, hanswer, hcode, hread, hplain.1, hplain.2, htopic, hzero]
    · have hslow : ¬ (record.headers = [] ∧ record.timestamp = 0) := hplain
      by_cases hzero : r.code = 0 <;> simp [Nif.enifProduce, hanswer, hcode, hread, hslow, hzero]

end Traced

end Exrdkafka.Nif
