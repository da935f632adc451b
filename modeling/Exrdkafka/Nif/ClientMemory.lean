import Exrdkafka.Nif.NewClient

/-!
# The memory of a client

The life of one client after another: it is created, or fails to be, its references are copied and
end, topics are created, it is cleaned up, and its destructor runs with the last reference. The
thread that a cleanup starts takes its calls in between.

* `Resource.shape` is what the fields of a resource own, `Shape.heap` the objects that are.
* `Sound` is the invariant of the fields and the threads.
* `always_allOwned_iff`: nothing is misused and nothing is leaked exactly when no client is cleaned
  up twice.
-/

namespace Exrdkafka.Nif.Owned

open EarlyReturn Machine Ownership Scoped Term

variable {κ τ : Type}

/-! ## The life of a client -/

/-- The resource, unless there is none, the number for the next topic or future, and the calls made
so far. -/
structure Life where
  res : Option Resource
  next : ℕ
  calls : List Call

/-- What can happen. -/
inductive LifeEvent where
  | producerNew (hasDrCallback config : Term) (r : NewReplies)
  | consumerNew (a : ConsumerArgs) (r : NewReplies)
  /-- a term, or a queue of the consumer, gets a reference to the resource -/
  | copy
  /-- a reference ends -/
  | drop
  | topicNew (clientRef topicName config : Term) (succeeds : Bool)
  /-- `GetOrCreateTopic`, called by a produce -/
  | getOrCreateTopic (name : List UInt8) (succeeds : Bool)
  | cleanup
  /-- the thread of a future makes its next call -/
  | thread (n : ℕ)

/-- The calls of the thread that a cleanup starts. -/
def Resource.cleanup (i : Resource) : List Call :=
  if i.isConsumer then cleanupConsumer true else cleanupProducer true

/-- The thread of a future makes the call `c`, and `rest` is left. With the call that destroys the
instance of a consumer, `kf` becomes null. -/
def Resource.perform (i : Resource) (n : ℕ) (c : Call) (rest : List Call) : Resource :=
  { i with
    kf := i.kf && c ≠ .rdKafkaDestroy
    threads := Function.update i.threads n rest }

namespace Life

/-- Before the first client. -/
def start : Life := ⟨none, 0, []⟩

/-- Calls are made, and the resource becomes `res`. -/
def make (s : Life) (res : Option Resource) (cs : List Call) : Life :=
  { s with res, calls := s.calls ++ cs }

/-- `enif_producer_cleanup` or `enif_consumer_cleanup` -/
def cleanup (s : Life) (i : Resource) : Life where
  res := some { i with
    closedFuture := some s.next
    threads := Function.update i.threads s.next i.cleanup }
  next := s.next + 1
  calls := s.calls ++ ((if i.kf then [.unwatch] else []) ++ [.newFuture s.next])

/-- One step. -/
def step (lib : Librdkafka κ τ) (s : Life) : LifeEvent → Option Life
  | .producerNew hasDrCallback config r =>
    match s.res with
    | some _ => none
    | none =>
      let (result, cs) := enifProducerNew lib hasDrCallback config r
      some (s.make result.2 cs)
  | .consumerNew a r =>
    match s.res with
    | some _ => none
    | none =>
      let (result, cs) := enifConsumerNew lib a r
      some (s.make result.2 cs)
  | .copy => s.res.map fun i => s.make (some { i with refs := i.refs + 1 }) [.makeResource]
  | .drop =>
    s.res.map fun i =>
      if i.refs = 1 then s.make none (i.free ++ [.releaseResource])
      else s.make (some { i with refs := i.refs - 1 }) [.releaseResource]
  | .topicNew clientRef topicName config succeeds =>
    s.res.bind fun i =>
      if i.isConsumer then none
      else
        let ((_, topics), cs) :=
          enifProducerTopicNew lib i.topics clientRef topicName config s.next succeeds
        some { s.make (some { i with topics, withConf := s.next :: i.withConf }) cs with
          next := s.next + 1 }
  | .getOrCreateTopic name succeeds =>
    s.res.bind fun i =>
      if i.isConsumer then none
      else
        let (topics, _) := i.topics.getOrCreateTopic name (if succeeds then some s.next else none)
        some { s.make (some { i with topics }) (addTopicCalls i.topics name s.next false succeeds)
          with next := s.next + 1 }
  | .cleanup => s.res.map s.cleanup
  | .thread n =>
    s.res.bind fun i =>
      match i.threads n with
      | [] => none
      | c :: rest => some (s.make (some (i.perform n c rest)) [c])

end Life

/-! ## What a resource owns -/

/-- What the fields of a resource own. -/
structure Shape where
  isConsumer : Bool
  kf : Bool
  manager : Bool
  refs : ℕ
  /-- the topics that the instance was lent to -/
  lent : List ℕ
  topics : List ℕ
  withConf : List ℕ
  /-- the configuration of a topic that is not created yet -/
  conf : Option ℕ
  future : Option ℕ

/-- The objects. -/
def Shape.heap (s : Shape) : Heap Handle
  | .resource => some ⟨s.refs, none, [.client]⟩
  | .client => if s.kf then some ⟨1, none, s.lent.map .topic⟩ else none
  | .conf => if s.kf then some ⟨1, some .client, []⟩ else none
  | .defaultTopicConf => if s.kf && s.isConsumer then some ⟨1, some .client, []⟩ else none
  | .topicManager => if s.manager && !s.isConsumer then some ⟨1, none, []⟩ else none
  | .queueManager => if s.manager && s.isConsumer then some ⟨1, none, []⟩ else none
  | .topicList => none
  | .topic n => if n ∈ s.topics then some ⟨1, none, []⟩ else none
  | .topicConf n =>
    if s.conf = some n then some ⟨1, none, []⟩
    else if n ∈ s.topics ∧ n ∈ s.withConf then some ⟨1, some (.topic n), []⟩
    else none
  | .future n => if s.future = some n then some ⟨1, none, []⟩ else none

/-- What a resource owns between two calls of the library. -/
def Resource.shape (i : Resource) : Shape where
  isConsumer := i.isConsumer
  kf := i.kf
  manager := i.manager
  refs := i.refs
  lent := numbers i.topics
  topics := numbers i.topics
  withConf := i.withConf
  conf := none
  future := i.closedFuture

/-- The objects there are to be. -/
def heapOf : Option Resource → Heap Handle
  | none => empty
  | some i => i.shape.heap

/-- **Everything is owned.** No call has misused an object, and the objects there are are those that
the fields of the resource own; without a resource, there are none. -/
def Life.AllOwned (s : Life) : Prop := run Call.step empty s.calls = some (heapOf s.res)

/-- A client is not cleaned up twice. -/
def CleanedOnce (s : Life) : LifeEvent → Prop
  | .cleanup => ∀ i, s.res = some i → i.closedFuture = none
  | _ => True

/-! ## The calls on what a resource owns -/

section Calls

variable {s : Shape}

/-- A call that does one thing. -/
theorem step_of_op {h h' : Heap Handle} {c : Call} {op : Op Handle} (hc : c.ops = [op])
    (hop : Ownership.step h op = some h') : Call.step h c = some h' := by
  rw [Call.step, hc, run_cons, hop]
  rfl

theorem own_resource : own s.heap .resource = some ⟨s.refs, none, [.client]⟩ := rfl

theorem own_client (h : s.kf = true) : own s.heap .client = some ⟨1, none, s.lent.map .topic⟩ :=
  own_of_root (if_pos h) rfl

theorem own_topic {n : ℕ} (h : n ∈ s.topics) : own s.heap (.topic n) = some ⟨1, none, []⟩ :=
  own_of_root (if_pos h) rfl

theorem own_topicConf {n : ℕ} (h : s.conf = some n) :
    own s.heap (.topicConf n) = some ⟨1, none, []⟩ :=
  own_of_root (if_pos h) rfl

theorem own_future {n : ℕ} (h : s.future = some n) :
    own s.heap (.future n) = some ⟨1, none, []⟩ :=
  own_of_root (if_pos h) rfl

theorem own_topicManager (h : s.manager = true) (hp : s.isConsumer = false) :
    own s.heap .topicManager = some ⟨1, none, []⟩ :=
  own_of_root (if_pos (by rw [h, hp]; rfl)) rfl

theorem own_queueManager (h : s.manager = true) (hc : s.isConsumer = true) :
    own s.heap .queueManager = some ⟨1, none, []⟩ :=
  own_of_root (if_pos (by rw [h, hc]; rfl)) rfl

/-- The object that an object becomes a part of. -/
def Handle.whole : Handle → Option Handle
  | .conf | .defaultTopicConf => some .client
  | .topicConf n => some (.topic n)
  | _ => none

theorem whole_heap (hconf : s.conf = none) (x : Handle) :
    s.heap x = none ∨ (s.heap x).bind Object.whole = x.whole := by
  cases x with
  | resource => exact .inr rfl
  | topicList => exact .inl rfl
  | topicConf n =>
    rw [Shape.heap, hconf, if_neg (by simp)]
    split_ifs
    · exact .inr rfl
    · exact .inl rfl
  | _ =>
    rw [Shape.heap]
    split_ifs
    · exact .inr rfl
    · exact .inl rfl

theorem destroy_heap (hconf : s.conf = none) (a x : Handle) :
    destroy s.heap a x = if x = a ∨ x.whole = some a then none else s.heap x := by
  rcases whole_heap hconf x with hx | hx
  · rw [destroy, hx, ite_self, ite_self]
  · simp only [destroy, partOf_iff, hx]

/-- Nothing becomes a part of the configuration of a topic. -/
theorem partOf_topicConf {n : ℕ} {x : Handle} :
    partOf s.heap (.topicConf n) x = true ↔ x = .topicConf n := by
  rw [partOf_iff, or_iff_left]
  cases x with
  | resource | topicList => simp [Shape.heap]
  | _ =>
    rw [Shape.heap]
    split_ifs <;> simp

/-! ### References -/

theorem step_makeResource :
    Call.step s.heap .makeResource = some { s with refs := s.refs + 1 }.heap := by
  refine (step_of_op rfl (step_retain own_resource)).trans (congrArg some ?_)
  funext x
  cases x <;> rfl

theorem step_releaseResource (h : s.refs ≠ 1) :
    Call.step s.heap .releaseResource = some { s with refs := s.refs - 1 }.heap := by
  refine (step_of_op rfl (step_release own_resource h)).trans (congrArg some ?_)
  funext x
  cases x <;> rfl

/-- With its last reference, a resource that owns nothing is gone. -/
theorem step_releaseResource_last (h : s.refs = 1) (hkf : s.kf = false)
    (hmanager : s.manager = false) (htopics : s.topics = []) (hconf : s.conf = none)
    (hfuture : s.future = none) : Call.step s.heap .releaseResource = some empty := by
  have hlent : ∀ b ∈ [Handle.client],
      s.heap b = none ∨ (s.heap b).bind Object.whole = some .resource := by
    intro b hb
    rw [List.mem_singleton.1 hb]
    exact .inl (if_neg (by rw [hkf]; exact Bool.false_ne_true))
  refine (step_of_op rfl (step_release_last own_resource h hlent)).trans (congrArg some ?_)
  funext x
  rw [destroy_heap hconf]
  cases x <;> simp [Handle.whole, Shape.heap, hkf, hmanager, htopics, hconf, hfuture, empty]

/-! ### The instance and the managers -/

/-- The instance is destroyed after the topics that it was lent to, and with its configuration. -/
theorem step_rdKafkaDestroy (hkf : s.kf = true) (htopics : s.topics = []) (hconf : s.conf = none) :
    Call.step s.heap .rdKafkaDestroy = some { s with kf := false }.heap := by
  have hlent : ∀ b ∈ s.lent.map Handle.topic,
      s.heap b = none ∨ (s.heap b).bind Object.whole = some .client := by
    intro b hb
    obtain ⟨n, -, rfl⟩ := List.mem_map.1 hb
    exact .inl (if_neg (by simp [htopics]))
  refine (step_of_op rfl (step_release_last (own_client hkf) rfl hlent)).trans (congrArg some ?_)
  funext x
  rw [destroy_heap hconf]
  cases x <;> simp [Handle.whole, Shape.heap]

theorem step_deleteTopicManager (hmanager : s.manager = true) (hp : s.isConsumer = false)
    (hconf : s.conf = none) :
    Call.step s.heap .deleteTopicManager = some { s with manager := false }.heap := by
  refine (step_of_op rfl (step_release_last (own_topicManager hmanager hp) rfl (by simp))).trans
    (congrArg some ?_)
  funext x
  rw [destroy_heap hconf]
  cases x <;> simp [Handle.whole, Shape.heap, hp]

theorem step_deleteQueueManager (hmanager : s.manager = true) (hc : s.isConsumer = true)
    (hconf : s.conf = none) :
    Call.step s.heap .deleteQueueManager = some { s with manager := false }.heap := by
  refine (step_of_op rfl (step_release_last (own_queueManager hmanager hc) rfl (by simp))).trans
    (congrArg some ?_)
  funext x
  rw [destroy_heap hconf]
  cases x <;> simp [Handle.whole, Shape.heap, hc]

/-! ### Futures -/

theorem step_newFuture {n : ℕ} (h : s.future = none) :
    Call.step s.heap (.newFuture n) = some { s with future := some n }.heap := by
  have hnone : s.heap (.future n) = none := if_neg (by simp [h])
  refine (step_of_op rfl (step_create hnone)).trans (congrArg some ?_)
  funext x
  cases x with
  | future m =>
    by_cases hm : m = n
    · simp [hm, Shape.heap]
    · simp [Function.update, hm, Shape.heap, h, Ne.symm hm]
  | _ => rfl

theorem step_deleteFuture {n : ℕ} (h : s.future = some n) (hconf : s.conf = none) :
    Call.step s.heap (.deleteFuture n) = some { s with future := none }.heap := by
  refine (step_of_op rfl (step_release_last (own_future h) rfl (by simp))).trans (congrArg some ?_)
  funext x
  rw [destroy_heap hconf]
  cases x with
  | future m =>
    by_cases hm : m = n
    · simp [Handle.whole, Shape.heap, hm]
    · simp [Handle.whole, Shape.heap, h, hm, Ne.symm hm]
  | _ => simp [Handle.whole, Shape.heap]

/-! ### Topics -/

theorem step_topicConfNew {n : ℕ} (hn : n ∉ s.topics) (hconf : s.conf = none) :
    Call.step s.heap (.topicConfNew (some n)) = some { s with conf := some n }.heap := by
  have hnone : s.heap (.topicConf n) = none := by simp [Shape.heap, hn, hconf]
  refine (step_of_op rfl (step_create hnone)).trans (congrArg some ?_)
  funext x
  cases x with
  | topicConf m =>
    by_cases hm : m = n
    · simp [hm, Shape.heap]
    · simp [Function.update, hm, Shape.heap, hconf, Ne.symm hm]
  | _ => rfl

/-- A configuration that no topic has taken over. -/
theorem step_topicConfDestroy {n : ℕ} (hn : n ∉ s.topics) (hconf : s.conf = some n) :
    Call.step s.heap (.topicConfDestroy (some n)) = some { s with conf := none }.heap := by
  refine (step_of_op rfl (step_release_last (own_topicConf hconf) rfl (by simp))).trans
    (congrArg some ?_)
  funext x
  simp only [destroy, partOf_topicConf]
  cases x with
  | topicConf m =>
    by_cases hm : m = n
    · simp [hm, Shape.heap, hn]
    · simp [hm, Ne.symm hm, Shape.heap, hconf]
  | _ => rfl

theorem step_create_topic {n : ℕ} (hn : n ∉ s.topics) (hconf : s.conf = some n ∨ n ∉ s.withConf) :
    Ownership.step s.heap (.create (.topic n)) = some { s with topics := n :: s.topics }.heap := by
  have hnone : s.heap (.topic n) = none := if_neg hn
  refine (step_create hnone).trans (congrArg some ?_)
  funext x
  cases x with
  | topic m =>
    by_cases hm : m = n
    · simp [hm, Shape.heap]
    · simp [Function.update, hm, Shape.heap]
  | topicConf m =>
    by_cases hm : m = n
    · subst hm
      rcases hconf with hconf | hconf <;> simp [Function.update, Shape.heap, hconf]
    · simp [Function.update, hm, Shape.heap]
  | _ => rfl

theorem step_lend_client {n : ℕ} (hkf : s.kf = true) (hn : n ∈ s.topics) :
    Ownership.step s.heap (.lend .client (.topic n)) =
      some { s with lent := n :: s.lent }.heap := by
  refine (step_lend (own_client hkf) (own_topic hn)).trans (congrArg some ?_)
  funext x
  cases x with
  | client => simp [Shape.heap, hkf]
  | _ => rfl

theorem step_give_topicConf {n : ℕ} (hn : n ∈ s.topics) (hconf : s.conf = some n) :
    Ownership.step s.heap (.give (.topicConf n) (.topic n)) =
      some { s with withConf := n :: s.withConf, conf := none }.heap := by
  refine (step_give (by simp) (own_topicConf hconf) rfl (own_topic hn)).trans (congrArg some ?_)
  funext x
  simp only [giveTo, partOf_topicConf]
  cases x with
  | topicConf m =>
    by_cases hm : m = n
    · simp [hm, Shape.heap, hconf, hn]
    · simp [hm, Ne.symm hm, Shape.heap, hconf]
  | topic m => simp [Shape.heap]
  | _ => simp [Shape.heap]

/-- A topic is created, and takes over the configuration that it is created with. -/
theorem step_topicNew {n : ℕ} (hkf : s.kf = true) (hn : n ∉ s.topics) (hconf : s.conf = some n) :
    Call.step s.heap (.topicNew n true true) = some { s with
      lent := n :: s.lent
      topics := n :: s.topics
      withConf := n :: s.withConf
      conf := none }.heap := by
  have hlend := step_lend_client (s := { s with topics := n :: s.topics }) hkf List.mem_cons_self
  have hgive := step_give_topicConf (s := { s with
    lent := n :: s.lent
    topics := n :: s.topics }) List.mem_cons_self hconf
  show run Ownership.step s.heap [.create (.topic n), .lend .client (.topic n),
    .give (.topicConf n) (.topic n)] = _
  rw [run_cons, step_create_topic hn (.inl hconf), Option.bind_some, run_cons, hlend,
    Option.bind_some, run_cons, hgive]
  rfl

theorem step_topicNew_default {n : ℕ} (hkf : s.kf = true) (hn : n ∉ s.topics)
    (hwith : n ∉ s.withConf) :
    Call.step s.heap (.topicNew n false true) =
      some { s with lent := n :: s.lent, topics := n :: s.topics }.heap := by
  have hlend := step_lend_client (s := { s with topics := n :: s.topics }) hkf List.mem_cons_self
  show run Ownership.step s.heap [.create (.topic n), .lend .client (.topic n)] = _
  rw [run_cons, step_create_topic hn (.inr hwith), Option.bind_some, run_cons, hlend]
  rfl

/-- A topic is destroyed with its configuration. -/
theorem step_topicDestroy {n : ℕ} {l : List ℕ} (h : s.topics = n :: l) (hn : n ∉ l)
    (hconf : s.conf = none) :
    Call.step s.heap (.topicDestroy n) = some { s with topics := l }.heap := by
  have hmem : n ∈ s.topics := by simp [h]
  refine (step_of_op rfl (step_release_last (own_topic hmem) rfl (by simp))).trans
    (congrArg some ?_)
  funext x
  rw [destroy_heap hconf]
  cases x with
  | topicConf m | topic m =>
    by_cases hm : m = n <;> simp [Handle.whole, Shape.heap, h, hconf, hn, hm]
  | _ => simp [Handle.whole, Shape.heap]

theorem run_topicDestroy {l : List ℕ} (h : s.topics = l) (hl : l.Nodup) (hconf : s.conf = none) :
    run Call.step s.heap (l.map .topicDestroy) = some { s with topics := [] }.heap := by
  induction l generalizing s with
  | nil =>
    obtain ⟨_, _, _, _, _, topics, _, _, _⟩ := s
    obtain rfl : topics = [] := h
    rfl
  | cons n l ih =>
    obtain ⟨hn, hl⟩ := List.nodup_cons.1 hl
    rw [List.map_cons, run_cons, step_topicDestroy h hn hconf, Option.bind_some]
    exact ih rfl hl hconf

/-! ### Uses -/

/-- A call that only uses what is there. -/
theorem step_uses {c : Call} (h : ∀ op ∈ c.ops, ∃ a o, op = .use a ∧ own s.heap a = some o) :
    Call.step s.heap c = some s.heap :=
  run_uses h

/-- The calls that use the instance, and the resource. -/
theorem step_client {c : Call} (hkf : s.kf = true)
    (hc : ∀ op ∈ c.ops, op = .use .client ∨ op = .use .resource) :
    Call.step s.heap c = some s.heap :=
  step_uses fun op hop => (hc op hop).elim (fun hop => ⟨_, _, hop, own_client hkf⟩) fun hop =>
    ⟨_, _, hop, own_resource⟩

theorem step_sendStopped : Call.step s.heap .sendStopped = some s.heap :=
  step_of_op rfl (step_use own_resource)

theorem step_clearAll (hkf : s.kf = true) (hmanager : s.manager = true)
    (hc : s.isConsumer = true) : Call.step s.heap .clearAll = some s.heap := by
  refine step_uses fun op hop => ?_
  rcases List.mem_pair.1 hop with rfl | rfl
  · exact ⟨_, _, rfl, own_queueManager hmanager hc⟩
  · exact ⟨_, _, rfl, own_client hkf⟩

theorem step_get {n : ℕ} (h : s.future = some n) : Call.step s.heap (.get n) = some s.heap :=
  step_of_op rfl (step_use (own_future h))

end Calls

/-! ## Creation -/

section Creation

/-- What a function that creates a client leaves: nothing, or what the resource that it returns
owns. -/
def Leaves (isConsumer : Bool) (r : NewResult) (h : Heap Handle) : Prop :=
  h = heapOf r.2 ∧
    ∀ i, r.2 = some i → i = { Resource.zero isConsumer with kf := true, manager := true }

/-- A function that fails leaves nothing when its scoped pointers leave nothing. -/
theorem leaves_failed {isConsumer : Bool} {h h' : Heap Handle} {g : List Call} (error : Term)
    (hrun : run Call.step h g = some h') (hh' : ∀ x, h' x = none) :
    ∃ h', run Call.step h g = some h' ∧ Leaves isConsumer (failed error) h' :=
  ⟨h', hrun, funext hh', nofun⟩

theorem failed_of_mapError {α ε : Type} {x : Except ε α} {f : ε → Term} {r : NewResult}
    (h : x.mapError (fun e => failed (f e)) = .error r) : ∃ error, r = failed error := by
  cases x with
  | error e => exact ⟨f e, (Except.error.inj h).symm⟩
  | ok a => cases h

theorem producerNew_meets (lib : Librdkafka κ τ) (hasDrCallback config : Term) (r : NewReplies) :
    Meets Call.step empty [] (producerNew lib hasDrCallback config r) (Leaves false) := by
  refine Meets.orReturn (leaves_failed _ rfl fun _ => rfl) fun hasDrCallback _ => ?_
  refine Meets.call rfl (Meets.scopedPtr (Meets.call rfl ?_))
  refine Meets.orElse (fun result hresult => ?_) fun _ _ => ?_
  · obtain ⟨error, rfl⟩ := failed_of_mapError hresult
    exact leaves_failed _ rfl fun x => by cases x <;> rfl
  refine Meets.call rfl (Meets.call rfl ?_)
  have hcallback : run Call.step (Function.update empty .conf (some ⟨1, none, []⟩))
      (if hasDrCallback then [.setDrMsgCb] else []) =
        some (Function.update empty .conf (some ⟨1, none, []⟩)) := by
    cases hasDrCallback <;> rfl
  refine Meets.calls hcallback ?_
  cases halloc : r.alloc with
  | false =>
    refine Meets.call rfl (Meets.returnIf (fun _ => ?_) (by simp))
    exact leaves_failed _ rfl fun x => by cases x <;> rfl
  | true =>
    refine Meets.call rfl (Meets.returnIf (by simp) fun _ => ?_)
    refine Meets.scopedPtr (Meets.call rfl ?_)
    cases hnew : r.rdKafkaNew with
    | error errstr =>
      refine Meets.call rfl (Meets.orElse (fun result hresult => ?_) (by simp [Except.mapError]))
      obtain ⟨error, rfl⟩ := failed_of_mapError hresult
      exact leaves_failed _ rfl fun x => by cases x <;> rfl
    | ok rk =>
      refine Meets.call rfl (Meets.orElse (by simp [Except.mapError]) fun _ _ => ?_)
      refine Meets.scopedPtr (Meets.release (Meets.call rfl (Meets.release ?_)))
      refine Meets.call rfl (Meets.call rfl (Meets.call rfl (Meets.release ?_)))
      refine Meets.done rfl ⟨?_, fun i hi => (Option.some.inj hi).symm⟩
      funext x
      cases x <;> rfl

/-- The loop of `topic_subscribe` only uses the list. -/
theorem addTopics_meets {h : Heap Handle} {o : Object Handle} {g : List Call}
    {E : Bool → Heap Handle → Prop} {k : Unit → Scoped.Body Bool Call Bool}
    (hlist : own h .topicList = some o) (hfail : ∃ h', run Call.step h g = some h' ∧ E false h')
    (hk : Meets Call.step h g (k ()) E) (elems : List Term) :
    Meets Call.step h g (addTopics elems >>= k) E := by
  induction elems with
  | nil => exact hk
  | cons head rest ih =>
    have hadd (name : List UInt8) : Call.step h (.topicListAdd name) = some h :=
      step_of_op rfl (step_use hlist)
    simp only [addTopics, bind_assoc]
    exact Meets.orReturn hfail fun name _ => Meets.call (hadd (cStr name)) ih

/-- The objects while a consumer subscribes. -/
def subscribing : Heap Handle
  | .resource => some ⟨1, none, [.client]⟩
  | .client => some ⟨1, none, []⟩
  | .conf | .defaultTopicConf => some ⟨1, some .client, []⟩
  | _ => none

/-- `topic_subscribe` leaves the list that it returns, if it returns one. -/
theorem topicSubscribe_meets (list : Term) :
    Meets Call.step subscribing [] (topicSubscribe list) fun topics h =>
      h = if topics then Function.update subscribing .topicList (some ⟨1, none, []⟩)
        else subscribing := by
  have hdestroyed : destroy (Function.update subscribing .topicList (some ⟨1, none, []⟩))
      .topicList = subscribing := by
    funext x
    cases x <;> rfl
  refine Meets.orReturn ⟨_, rfl, rfl⟩ fun elems _ => ?_
  refine Meets.returnIf (fun _ => ⟨_, rfl, rfl⟩) fun _ => ?_
  refine Meets.call rfl (Meets.scopedPtr ?_)
  refine addTopics_meets rfl ⟨_, rfl, hdestroyed⟩ ?_ elems
  exact Meets.release (Meets.done rfl rfl)

theorem consumerNew_meets (lib : Librdkafka κ τ) (a : ConsumerArgs) (r : NewReplies) :
    Meets Call.step empty [] (consumerNew lib a r) (Leaves true) := by
  refine Meets.returnIf (fun _ => leaves_failed _ rfl fun _ => rfl) fun _ => ?_
  refine Meets.orReturn (leaves_failed _ rfl fun _ => rfl) fun groupId _ => ?_
  refine Meets.call rfl (Meets.scopedPtr (Meets.call rfl (Meets.scopedPtr (Meets.call rfl ?_))))
  refine Meets.orElse (fun result hresult => ?_) fun conf _ => ?_
  · obtain ⟨error, rfl⟩ := failed_of_mapError hresult
    exact leaves_failed _ rfl fun x => by cases x <;> rfl
  refine Meets.call rfl (Meets.orElse (fun result hresult => ?_) fun _ _ => ?_)
  · obtain ⟨error, rfl⟩ := failed_of_mapError hresult
    exact leaves_failed _ rfl fun x => by cases x <;> rfl
  refine Meets.call rfl (Meets.orElse (fun result hresult => ?_) fun _ _ => ?_)
  · obtain ⟨error, rfl⟩ := failed_of_mapError hresult
    exact leaves_failed _ rfl fun x => by cases x <;> rfl
  cases halloc : r.alloc with
  | false =>
    refine Meets.call rfl (Meets.returnIf (fun _ => ?_) (by simp))
    exact leaves_failed _ rfl fun x => by cases x <;> rfl
  | true =>
    refine Meets.call rfl (Meets.returnIf (by simp) fun _ => ?_)
    refine Meets.scopedPtr (Meets.call rfl (Meets.release (Meets.call rfl ?_)))
    refine Meets.call rfl (Meets.call rfl (Meets.call rfl ?_))
    cases hnew : r.rdKafkaNew with
    | error errstr =>
      refine Meets.call rfl (Meets.orElse (fun result hresult => ?_) (by simp [Except.mapError]))
      obtain ⟨error, rfl⟩ := failed_of_mapError hresult
      exact leaves_failed _ rfl fun x => by cases x <;> rfl
    | ok rk =>
      refine Meets.call (show _ = some subscribing from congrArg some ?_)
        (Meets.orElse (by simp [Except.mapError]) fun _ _ => ?_)
      · funext x
        cases x <;> rfl
      refine Meets.scopedPtr (Meets.release (Meets.call rfl ?_))
      obtain ⟨h, hrun, hlist⟩ := (topicSubscribe_meets a.topics).finish
      refine Meets.calls hrun ?_
      cases htopics : (finish (topicSubscribe a.topics)).1 with
      | false =>
        rw [htopics] at hlist
        obtain rfl := hlist
        refine Meets.returnIf (fun _ => ?_) (by simp)
        exact leaves_failed _ rfl fun x => by cases x <;> rfl
      | true =>
        rw [htopics] at hlist
        obtain rfl := hlist
        refine Meets.returnIf (by simp) fun _ => Meets.scopedPtr (Meets.call rfl ?_)
        refine Meets.returnIf (fun _ => ?_) fun _ => ?_
        · exact leaves_failed _ rfl fun x => by cases x <;> rfl
        refine Meets.release (Meets.call rfl (Meets.call rfl (Meets.call rfl ?_)))
        refine Meets.done rfl ⟨?_, fun i hi => (Option.some.inj hi).symm⟩
        funext x
        cases x <;> rfl

end Creation

/-! ## Topics -/

section Topics

variable {s : Shape} {m : TopicManager} {n : ℕ}

/-- What a resource owns with the topics of `m`. -/
def Shape.withTopics (s : Shape) (m : TopicManager) : Shape :=
  { s with lent := numbers m, topics := numbers m }

/-- The configuration of a topic that was not created. -/
theorem heap_withConf (hn : n ∉ s.topics) :
    { s with withConf := n :: s.withConf }.heap = s.heap := by
  funext x
  cases x with
  | topicConf k =>
    by_cases hk : k = n
    · simp [Shape.heap, hk, hn]
    · simp [Shape.heap, hk]
  | _ => rfl

theorem numbers_insert {name : List UInt8} {topic : TopicHandle} (h : topic.topic = cStr name)
    (hname : name ∉ m.topics) : numbers (m.insert name topic h) = topic.address :: numbers m := by
  simp only [numbers, TopicManager.insert, AList.insert_of_notMem hname, List.map_cons]

/-- The map after a call that may have created the topic `n`. -/
def Extends (m m' : TopicManager) (n : ℕ) : Prop :=
  numbers m' = numbers m ∨ numbers m' = n :: numbers m

theorem producerTopicNew_meets (lib : Librdkafka κ τ) (hkf : s.kf = true) (hconf : s.conf = none)
    (hn : n ∉ numbers m) (clientRef topicName config : Term) (succeeds : Bool) :
    Meets Call.step (s.withTopics m).heap []
      (producerTopicNew lib m clientRef topicName config n succeeds) fun r h =>
        h = { s.withTopics r.2 with withConf := n :: s.withConf }.heap ∧ Extends m r.2 n := by
  have hsame : (s.withTopics m).heap = { s.withTopics m with withConf := n :: s.withConf }.heap ∧
      Extends m m n := ⟨(heap_withConf hn).symm, .inl rfl⟩
  refine Meets.orReturn ⟨_, rfl, hsame⟩ fun _ _ => Meets.orReturn ⟨_, rfl, hsame⟩ fun name _ => ?_
  refine Meets.call (step_topicConfNew hn hconf) (Meets.scopedPtr ?_)
  set filling : Shape := { s.withTopics m with conf := some n }
  have hdestroy : run Call.step filling.heap [.topicConfDestroy (some n)] =
      some (s.withTopics m).heap := by
    rw [run_singleton, step_topicConfDestroy (s := filling) hn rfl]
    show some { s.withTopics m with conf := none }.heap = _
    rw [Shape.withTopics, hconf]
  refine Meets.call (step_of_op rfl (step_use (own_topicConf (s := filling) rfl))) ?_
  refine Meets.orElse (fun r hr => ⟨_, hdestroy, ?_⟩) fun _ _ => ?_
  · obtain ⟨error, rfl⟩ : ∃ error, r = (error, m) := by
      cases hparse : parseTopicConfig lib.topicConfSet config lib.topicConfNew with
      | error e => exact ⟨e, (Except.error.inj (hparse ▸ hr)).symm⟩
      | ok conf => rw [hparse] at hr; cases hr
    exact hsame
  rcases TopicManager.addTopic_cases m name (if succeeds then some n else none) with
    ⟨hname, hadd⟩ | ⟨hname, hanswer, hadd⟩ | ⟨hname, topic, htopic, hnew, hadd⟩
  · rw [hadd, addTopicCalls, if_pos hname]
    exact Meets.calls rfl (Meets.returnIf (fun _ => ⟨_, hdestroy, hsame⟩) (by simp))
  · obtain rfl : succeeds = false := by simpa using hanswer
    rw [hadd, addTopicCalls, if_neg hname]
    have hcall : Call.step filling.heap (.topicNew n true false) = some filling.heap :=
      step_of_op rfl (step_use (own_client hkf))
    refine Meets.calls (run_singleton.trans hcall) ?_
    exact Meets.returnIf (fun _ => ⟨_, hdestroy, hsame⟩) (by simp)
  · obtain rfl : succeeds = true := by
      by_contra hno
      simp [rdKafkaTopicNew, hno] at hnew
    obtain rfl : (⟨n, cStr name⟩ : TopicHandle) = topic := Option.some.inj hnew
    rw [hadd, addTopicCalls, if_neg hname]
    have hcall := step_topicNew (s := filling) hkf hn rfl
    refine Meets.calls (run_singleton.trans hcall) ?_
    refine Meets.returnIf (by simp) fun _ => Meets.release ?_
    rw [List.erase_cons_head]
    refine Meets.done rfl ⟨?_, .inr (numbers_insert rfl hname)⟩
    rw [Shape.withTopics, numbers_insert rfl hname, ← hconf]
    rfl

/-- `GetOrCreateTopic` on what a producer owns. -/
theorem run_getOrCreateTopic (hkf : s.kf = true) (hn : n ∉ numbers m) (hwith : n ∉ s.withConf)
    (name : List UInt8) (succeeds : Bool) :
    ∃ m', (m.getOrCreateTopic name (if succeeds then some n else none)).1 = m' ∧ Extends m m' n ∧
      run Call.step (s.withTopics m).heap (addTopicCalls m name n false succeeds) =
        some (s.withTopics m').heap := by
  rw [TopicManager.getOrCreateTopic_eq]
  rcases TopicManager.addTopic_cases m name (if succeeds then some n else none) with
    ⟨hname, hadd⟩ | ⟨hname, hanswer, hadd⟩ | ⟨hname, topic, htopic, hnew, hadd⟩
  · obtain ⟨topic, htopic⟩ := Option.isSome_iff_exists.1 (AList.lookup_isSome.2 hname)
    rw [addTopicCalls, if_pos hname, htopic]
    exact ⟨m, rfl, .inl rfl, rfl⟩
  · obtain rfl : succeeds = false := by simpa using hanswer
    rw [addTopicCalls, if_neg hname, AList.lookup_eq_none.2 hname, hadd]
    refine ⟨m, rfl, .inl rfl, ?_⟩
    rw [run_singleton]
    exact step_of_op rfl (step_use (own_client hkf))
  · obtain rfl : succeeds = true := by
      by_contra hno
      simp [rdKafkaTopicNew, hno] at hnew
    obtain rfl : (⟨n, cStr name⟩ : TopicHandle) = topic := Option.some.inj hnew
    rw [addTopicCalls, if_neg hname, AList.lookup_eq_none.2 hname, hadd]
    refine ⟨_, rfl, .inr (numbers_insert rfl hname), ?_⟩
    have hcall := step_topicNew_default (s := s.withTopics m) hkf hn hwith
    rw [run_singleton, hcall, Shape.withTopics, Shape.withTopics, numbers_insert rfl hname]

end Topics

/-! ## The invariant -/

/-- The fields of a resource and the threads of its futures fit together. -/
structure Resource.Sound (i : Resource) (next : ℕ) : Prop where
  refs : 0 < i.refs
  manager : i.manager = true
  numbers : ∀ n ∈ Owned.numbers i.topics, n < next
  nodup : (Owned.numbers i.topics).Nodup
  withConf : ∀ n ∈ i.withConf, n < next
  /-- only a producer has topics -/
  topics : i.isConsumer = true → Owned.numbers i.topics = []
  /-- without a cleanup, the instance is there -/
  running : i.closedFuture = none → i.kf = true
  /-- the thread of the future is somewhere in its calls, and a consumer has its instance until the
  thread has destroyed it -/
  thread : ∀ n, i.closedFuture = some n → n < next ∧ i.threads n <:+ i.cleanup ∧
    (i.kf = true ↔ (i.isConsumer = true → .rdKafkaDestroy ∈ i.threads n))
  /-- no other thread works on the client -/
  idle : ∀ n, i.threads n ≠ [] → i.closedFuture = some n

/-- **The invariant.** -/
structure Life.Sound (s : Life) : Prop where
  allOwned : s.AllOwned
  res : ∀ i, s.res = some i → i.Sound s.next

theorem sound_start : Life.start.Sound := ⟨rfl, nofun⟩

section Invariant

variable {s : Life} {i : Resource} {next : ℕ}

/-- A resource that has just been created. -/
theorem sound_zero (isConsumer : Bool) :
    Resource.Sound { Resource.zero isConsumer with kf := true, manager := true } next where
  refs := Nat.one_pos
  manager := rfl
  numbers := by simp [Resource.zero, Owned.numbers, TopicManager.empty]
  nodup := by simp [Resource.zero, Owned.numbers, TopicManager.empty]
  withConf := by simp [Resource.zero]
  topics _ := by simp [Resource.zero, Owned.numbers, TopicManager.empty]
  running _ := rfl
  thread n hn := by cases hn
  idle n hn := absurd rfl hn

/-- A client has been created, or not. -/
theorem Life.Sound.create (h : s.Sound) (hres : s.res = none) {isConsumer : Bool}
    {b : Scoped.Body NewResult Call NewResult}
    (hb : Meets Call.step empty [] b (Leaves isConsumer)) :
    (s.make (finish b).1.2 (finish b).2).Sound := by
  obtain ⟨h', hrun, rfl, hsome⟩ := hb.finish
  have hheap : run Call.step empty s.calls = some empty := by
    have hall := h.allOwned
    rwa [AllOwned, hres] at hall
  refine ⟨?_, fun i hi => ?_⟩
  · show run Call.step empty (s.calls ++ _) = _
    rw [run_append, hheap, Option.bind_some, hrun]
    rfl
  · obtain rfl := hsome i hi
    exact sound_zero isConsumer

/-- Calls on what a resource owns. -/
theorem Life.Sound.make (h : s.Sound) (hres : s.res = some i) {res : Option Resource}
    {cs : List Call} (hrun : run Call.step i.shape.heap cs = some (heapOf res))
    (hsound : ∀ i', res = some i' → i'.Sound next) : Life.Sound { s.make res cs with next } := by
  refine ⟨?_, hsound⟩
  have hall := h.allOwned
  rw [AllOwned, hres] at hall
  show run Call.step empty (s.calls ++ cs) = some (heapOf res)
  rw [run_append, hall]
  exact hrun

/-! ### Threads -/

/-- The rest of a cleanup of a producer. -/
theorem suffix_cleanupProducer {c : Call} {rest : List Call}
    (h : c :: rest <:+ cleanupProducer true) :
    c = .flush ∧ rest = [.sendStopped] ∨ c = .sendStopped ∧ rest = [] := by
  simpa [cleanupProducer, List.suffix_cons_iff] using h

/-- The rest of a cleanup of a consumer. -/
theorem suffix_cleanupConsumer {c : Call} {rest : List Call}
    (h : c :: rest <:+ cleanupConsumer true) :
    c = .clearAll ∧ rest = [.consumerClose, .rdKafkaDestroy, .sendStopped] ∨
      c = .consumerClose ∧ rest = [.rdKafkaDestroy, .sendStopped] ∨
      c = .rdKafkaDestroy ∧ rest = [.sendStopped] ∨ c = .sendStopped ∧ rest = [] := by
  simpa [cleanupConsumer, List.suffix_cons_iff] using h

/-- What a call of a thread does. -/
theorem Resource.Sound.step_thread (h : i.Sound next) {n : ℕ} {c : Call} {rest : List Call}
    (hn : i.threads n = c :: rest) :
    Call.step i.shape.heap c = some (i.perform n c rest).shape.heap := by
  have hfuture := h.idle n (by simp [hn])
  obtain ⟨-, hsuffix, hkf⟩ := h.thread n hfuture
  rw [hn] at hsuffix hkf
  have hsame (hc : c ≠ .rdKafkaDestroy) : (i.perform n c rest).shape = i.shape := by
    simp [perform, shape, hc]
  cases hconsumer : i.isConsumer with
  | false =>
    rw [cleanup, hconsumer, if_neg Bool.false_ne_true] at hsuffix
    replace hkf : i.kf = true := hkf.2 (by simp [hconsumer])
    rcases suffix_cleanupProducer hsuffix with ⟨rfl, rfl⟩ | ⟨rfl, rfl⟩
    · rw [hsame (by simp)]
      exact step_client hkf (by simp [Call.ops])
    · rw [hsame (by simp)]
      exact step_sendStopped
  | true =>
    rw [cleanup, hconsumer, if_pos rfl] at hsuffix
    rcases suffix_cleanupConsumer hsuffix with
      ⟨rfl, rfl⟩ | ⟨rfl, rfl⟩ | ⟨rfl, rfl⟩ | ⟨rfl, rfl⟩
    · rw [hsame (by simp)]
      exact step_clearAll (hkf.2 (by simp)) h.manager hconsumer
    · rw [hsame (by simp)]
      exact step_client (hkf.2 (by simp)) (by simp [Call.ops])
    · have hdestroyed : (i.perform n .rdKafkaDestroy [.sendStopped]).shape =
          { i.shape with kf := false } := by
        simp [perform, shape]
      rw [hdestroyed]
      exact step_rdKafkaDestroy (hkf.2 (by simp)) (h.topics hconsumer) rfl
    · rw [hsame (by simp)]
      exact step_sendStopped

/-- A call of a thread keeps the fields and the threads together. -/
theorem Resource.Sound.perform (h : i.Sound next) {n : ℕ} {c : Call} {rest : List Call}
    (hn : i.threads n = c :: rest) : (i.perform n c rest).Sound next := by
  have hfuture := h.idle n (by simp [hn])
  obtain ⟨hlt, hsuffix, hkf⟩ := h.thread n hfuture
  rw [hn] at hsuffix hkf
  refine { h with running := fun hnone => ?_, thread := fun k hk => ?_, idle := fun k hk => ?_ }
  · rw [show i.closedFuture = none from hnone] at hfuture
    cases hfuture
  · obtain rfl : n = k := Option.some.inj (hfuture.symm.trans hk)
    have hrest : (i.perform n c rest).threads n = rest := Function.update_self _ _ _
    rw [hrest]
    refine ⟨hlt, (List.suffix_cons c rest).trans hsuffix, ?_⟩
    show (i.kf && decide (c ≠ .rdKafkaDestroy)) = true ↔
      (i.isConsumer = true → .rdKafkaDestroy ∈ rest)
    cases hconsumer : i.isConsumer with
    | false =>
      rw [cleanup, hconsumer, if_neg Bool.false_ne_true] at hsuffix
      replace hkf : i.kf = true := hkf.2 (by simp [hconsumer])
      rcases suffix_cleanupProducer hsuffix with ⟨rfl, rfl⟩ | ⟨rfl, rfl⟩ <;> simp [hkf]
    | true =>
      rw [cleanup, hconsumer, if_pos rfl] at hsuffix
      rw [hconsumer] at hkf
      rcases suffix_cleanupConsumer hsuffix with
        ⟨rfl, rfl⟩ | ⟨rfl, rfl⟩ | ⟨rfl, rfl⟩ | ⟨rfl, rfl⟩
      · simpa using hkf
      · simpa using hkf
      · simp
      · simpa using hkf
  · by_cases hkn : k = n
    · exact hkn ▸ hfuture
    · refine h.idle k ?_
      simpa [Resource.perform, Function.update_of_ne hkn] using hk

/-- A thread that makes all its calls: a consumer has lost its instance then. -/
theorem Resource.Sound.run_thread (h : i.Sound next) {n : ℕ} (hn : i.closedFuture = some n) :
    run Call.step i.shape.heap (i.threads n) =
      some { i.shape with kf := !i.isConsumer }.heap := by
  obtain ⟨l, hl⟩ : ∃ l, i.threads n = l := ⟨_, rfl⟩
  rw [hl]
  induction l generalizing i with
  | nil =>
    have hkf := (h.thread n hn).2.2
    rw [hl] at hkf
    have hgone : i.kf = !i.isConsumer := by
      cases hconsumer : i.isConsumer <;> simpa [hconsumer] using hkf
    rw [← hgone]
    rfl
  | cons c rest ih =>
    have hrest : (i.perform n c rest).threads n = rest := Function.update_self _ _ _
    rw [run_cons, h.step_thread hl, Option.bind_some, ih (h.perform hl) hn hrest]
    rfl

/-! ### Destructors -/

/-- The beginning of the destructor. -/
theorem Resource.Sound.run_stop (h : i.Sound next) {cleanup : List Call}
    (hcleanup : i.kf = true →
      run Call.step i.shape.heap cleanup = some { i.shape with kf := !i.isConsumer }.heap) :
    run Call.step i.shape.heap (i.stop cleanup) =
      some { i.shape with kf := !i.isConsumer, future := none }.heap := by
  rw [stop]
  cases hfuture : i.closedFuture with
  | some n =>
    have hget := step_get (s := { i.shape with kf := !i.isConsumer }) hfuture
    have hdelete := step_deleteFuture (s := { i.shape with kf := !i.isConsumer }) hfuture rfl
    show run Call.step i.shape.heap (i.threads n ++ [.get n, .deleteFuture n]) = _
    rw [run_append, h.run_thread hfuture, Option.bind_some, run_cons, hget, Option.bind_some,
      run_singleton, hdelete]
  | none =>
    have hkf := h.running hfuture
    have hunwatch : Call.step i.shape.heap .unwatch = some i.shape.heap :=
      step_client hkf (by simp [Call.ops])
    show run Call.step i.shape.heap (if i.kf then .unwatch :: cleanup else []) = _
    rw [if_pos hkf, run_cons, hunwatch, Option.bind_some, hcleanup hkf, shape, hfuture]

/-- The instance of a producer is there until the producer is freed. -/
theorem Resource.Sound.kf_of_producer (h : i.Sound next) (hp : i.isConsumer = false) :
    i.kf = true := by
  cases hfuture : i.closedFuture with
  | none => exact h.running hfuture
  | some n =>
    exact (h.thread n hfuture).2.2.2 fun hc => absurd (hp.symm.trans hc) Bool.false_ne_true

theorem Resource.Sound.run_producerFree (h : i.Sound next) (hp : i.isConsumer = false)
    (hrefs : i.refs = 1) :
    run Call.step i.shape.heap (i.producerFree ++ [.releaseResource]) = some empty := by
  have hkf := h.kf_of_producer hp
  have hcleanup (_ : i.kf = true) : run Call.step i.shape.heap (cleanupProducer false) =
      some { i.shape with kf := !i.isConsumer }.heap := by
    have hflush : Call.step i.shape.heap .flush = some i.shape.heap :=
      step_client hkf (by simp [Call.ops])
    have hsame : { i.shape with kf := !i.isConsumer } = i.shape := by
      rw [shape, hp, hkf]
      rfl
    rw [hsame]
    exact run_singleton.trans hflush
  have htopics : run Call.step { i.shape with kf := !i.isConsumer, future := none }.heap
      ((Owned.numbers i.topics).map .topicDestroy) =
        some { i.shape with kf := !i.isConsumer, future := none, topics := [] }.heap :=
    run_topicDestroy rfl h.nodup rfl
  have hmanager : Call.step { i.shape with kf := !i.isConsumer, future := none, topics := [] }.heap
      .deleteTopicManager = some { i.shape with
        kf := !i.isConsumer, future := none, topics := [], manager := false }.heap :=
    step_deleteTopicManager h.manager hp rfl
  have hdestroy : Call.step { i.shape with
      kf := !i.isConsumer, future := none, topics := [], manager := false }.heap
      .rdKafkaDestroy = some { i.shape with
        kf := false, future := none, topics := [], manager := false }.heap :=
    step_rdKafkaDestroy (by rw [hp]; rfl) rfl rfl
  have hrelease := step_releaseResource_last (s := { i.shape with
    kf := false, future := none, topics := [], manager := false }) hrefs rfl rfl rfl rfl rfl
  -- the topics are destroyed before the instance that they need
  have hmanaged := run_append_some (h.run_stop hcleanup)
    (run_append_some htopics (run_singleton.trans hmanager))
  have hdestroyed := run_append_some hmanaged (run_singleton.trans hdestroy)
  rw [producerFree, if_pos h.manager, if_pos hkf]
  exact run_append_some hdestroyed (run_singleton.trans hrelease)

theorem Resource.Sound.run_consumerFree (h : i.Sound next) (hc : i.isConsumer = true)
    (hrefs : i.refs = 1) :
    run Call.step i.shape.heap (i.consumerFree ++ [.releaseResource]) = some empty := by
  have hcleanup (hkf : i.kf = true) : run Call.step i.shape.heap (cleanupConsumer false) =
      some { i.shape with kf := !i.isConsumer }.heap := by
    have hclear : Call.step i.shape.heap .clearAll = some i.shape.heap :=
      step_clearAll hkf h.manager hc
    have hclose : Call.step i.shape.heap .consumerClose = some i.shape.heap :=
      step_client hkf (by simp [Call.ops])
    have hdestroy := step_rdKafkaDestroy (s := i.shape) hkf (h.topics hc) rfl
    show run Call.step i.shape.heap [.clearAll, .consumerClose, .rdKafkaDestroy] = _
    rw [run_cons, hclear, Option.bind_some, run_cons, hclose, Option.bind_some, run_singleton,
      hdestroy, hc]
    rfl
  have hdelete := step_deleteQueueManager
    (s := { i.shape with kf := !i.isConsumer, future := none }) h.manager hc rfl
  rw [consumerFree, if_pos h.manager, run_append, run_append, h.run_stop hcleanup,
    Option.bind_some, run_singleton, hdelete, Option.bind_some, run_singleton]
  exact step_releaseResource_last hrefs (by simp [hc]) rfl (h.topics hc) rfl rfl

/-- With the last reference, the destructor runs, and nothing is left. -/
theorem Resource.Sound.run_free (h : i.Sound next) (hrefs : i.refs = 1) :
    run Call.step i.shape.heap (i.free ++ [.releaseResource]) = some empty := by
  rw [free]
  cases hconsumer : i.isConsumer with
  | false => exact h.run_producerFree hconsumer hrefs
  | true => exact h.run_consumerFree hconsumer hrefs

/-! ### Steps -/

/-- The map of a producer after a call for a topic. -/
theorem Resource.Sound.extend (h : i.Sound next) (hp : i.isConsumer = false) {m : TopicManager}
    (hm : Extends i.topics m next) {withConf : List ℕ} (hwith : ∀ n ∈ withConf, n < next + 1) :
    { i with topics := m, withConf }.Sound (next + 1) := by
  have hnext : next ∉ Owned.numbers i.topics := fun hmem => (h.numbers next hmem).false
  refine { h with
    numbers := fun n hn => ?_
    nodup := ?_
    withConf := hwith
    topics := fun hc => absurd (hp.symm.trans hc) Bool.false_ne_true
    thread := fun n hn => ?_ }
  · rcases hm with hm | hm
    · exact (h.numbers n (hm ▸ hn)).trans (Nat.lt_succ_self next)
    · rcases List.mem_cons.1 (hm ▸ hn) with rfl | hn
      · exact Nat.lt_succ_self _
      · exact (h.numbers n hn).trans (Nat.lt_succ_self next)
  · rcases hm with hm | hm
    · exact hm ▸ h.nodup
    · exact hm ▸ List.nodup_cons.2 ⟨hnext, h.nodup⟩
  · obtain ⟨hlt, hthread⟩ := h.thread n hn
    exact ⟨hlt.trans (Nat.lt_succ_self next), hthread⟩

/-- A first cleanup. -/
theorem Life.Sound.cleanup (h : s.Sound) (hres : s.res = some i) (hfuture : i.closedFuture = none) :
    (s.cleanup i).Sound := by
  have hi := h.res i hres
  have hkf := hi.running hfuture
  have hunwatch : Call.step i.shape.heap .unwatch = some i.shape.heap :=
    step_client hkf (by simp [Call.ops])
  have hnew := step_newFuture (s := i.shape) (n := s.next) hfuture
  have hrun : run Call.step i.shape.heap
      ((if i.kf then [.unwatch] else []) ++ [.newFuture s.next]) =
        some { i.shape with future := some s.next }.heap := by
    rw [if_pos hkf]
    exact run_append_some (run_singleton.trans hunwatch) (run_singleton.trans hnew)
  refine h.make hres hrun fun i' hi' => ?_
  obtain rfl := Option.some.inj hi'
  have hthread : (Function.update i.threads s.next i.cleanup) s.next = i.cleanup :=
    Function.update_self _ _ _
  refine { hi with
    numbers := fun n hn => (hi.numbers n hn).trans (Nat.lt_succ_self _)
    withConf := fun n hn => (hi.withConf n hn).trans (Nat.lt_succ_self _)
    running := nofun
    thread := fun n hn => ?_
    idle := fun n hn => ?_ }
  · obtain rfl : s.next = n := Option.some.inj hn
    refine ⟨Nat.lt_succ_self _, ?_, ?_⟩
    · show Function.update i.threads s.next i.cleanup s.next <:+ i.cleanup
      rw [hthread]
    · show i.kf = true ↔ (i.isConsumer = true →
        .rdKafkaDestroy ∈ Function.update i.threads s.next i.cleanup s.next)
      rw [hthread]
      refine iff_of_true hkf fun hc => ?_
      rw [Resource.cleanup, if_pos hc]
      decide
  · by_cases hns : n = s.next
    · rw [hns]
    · have hidle := hi.idle n (by simpa [Function.update_of_ne hns] using hn)
      rw [hfuture] at hidle
      cases hidle

/-- `enif_producer_topic_new` -/
theorem Life.Sound.topicNew (lib : Librdkafka κ τ) (h : s.Sound) (hres : s.res = some i)
    (hp : i.isConsumer = false) (clientRef topicName config : Term) (succeeds : Bool) :
    Life.Sound
      { s.make (some { i with
          topics := (enifProducerTopicNew lib i.topics clientRef topicName config s.next
            succeeds).1.2
          withConf := s.next :: i.withConf })
        (enifProducerTopicNew lib i.topics clientRef topicName config s.next succeeds).2 with
        next := s.next + 1 } := by
  have hi := h.res i hres
  have hnext : s.next ∉ numbers i.topics := fun hmem => (hi.numbers s.next hmem).false
  have hmeets := producerTopicNew_meets (s := i.shape) lib (hi.kf_of_producer hp) rfl hnext
    clientRef topicName config succeeds
  obtain ⟨h', hrun, rfl, hext⟩ := hmeets.finish
  refine h.make hres hrun fun i' hi' => ?_
  obtain rfl := Option.some.inj hi'
  refine hi.extend hp hext (List.forall_mem_cons.2 ⟨Nat.lt_succ_self _, fun n hn => ?_⟩)
  exact (hi.withConf n hn).trans (Nat.lt_succ_self _)

/-- `GetOrCreateTopic` -/
theorem Life.Sound.getOrCreateTopic (h : s.Sound) (hres : s.res = some i)
    (hp : i.isConsumer = false) (name : List UInt8) (succeeds : Bool) :
    Life.Sound
      { s.make (some { i with
          topics := (i.topics.getOrCreateTopic name (if succeeds then some s.next else none)).1 })
        (addTopicCalls i.topics name s.next false succeeds) with
        next := s.next + 1 } := by
  have hi := h.res i hres
  have hnext : s.next ∉ numbers i.topics := fun hmem => (hi.numbers s.next hmem).false
  have hwith : s.next ∉ i.withConf := fun hmem => (hi.withConf s.next hmem).false
  obtain ⟨m, hm, hext, hrun⟩ := run_getOrCreateTopic (s := i.shape) (hi.kf_of_producer hp) hnext
    hwith name succeeds
  rw [hm]
  refine h.make hres hrun fun i' hi' => ?_
  obtain rfl := Option.some.inj hi'
  exact hi.extend hp hext fun n hn => (hi.withConf n hn).trans (Nat.lt_succ_self _)

/-- **One step.** -/
theorem Life.Sound.step (lib : Librdkafka κ τ) (h : s.Sound) {e : LifeEvent} {t : Life}
    (ht : s.step lib e = some t) (honce : CleanedOnce s e) : t.Sound := by
  cases hres : s.res with
  | none =>
    cases e with
    | producerNew hasDrCallback config r =>
      simp only [Life.step, hres] at ht
      obtain rfl := Option.some.inj ht
      exact h.create hres (producerNew_meets lib hasDrCallback config r)
    | consumerNew a r =>
      simp only [Life.step, hres] at ht
      obtain rfl := Option.some.inj ht
      exact h.create hres (consumerNew_meets lib a r)
    | _ =>
      simp only [Life.step, hres] at ht
      cases ht
  | some i =>
    have hi := h.res i hres
    cases e with
    | producerNew | consumerNew =>
      simp only [Life.step, hres] at ht
      cases ht
    | copy =>
      simp only [Life.step, hres, Option.map_some] at ht
      obtain rfl := Option.some.inj ht
      refine h.make hres (run_singleton.trans step_makeResource) fun i' hi' => ?_
      obtain rfl := Option.some.inj hi'
      exact { hi with refs := Nat.succ_pos _ }
    | drop =>
      simp only [Life.step, hres, Option.map_some] at ht
      obtain rfl := Option.some.inj ht
      split_ifs with hrefs
      · exact h.make hres (hi.run_free hrefs) nofun
      · have hrelease := step_releaseResource (s := i.shape) hrefs
        refine h.make hres (run_singleton.trans hrelease) fun i' hi' => ?_
        obtain rfl := Option.some.inj hi'
        have hpos := hi.refs
        exact { hi with refs := by show 0 < i.refs - 1; omega }
    | topicNew clientRef topicName config succeeds =>
      cases hc : i.isConsumer with
      | true =>
        simp only [Life.step, hres, Option.bind_some, if_pos hc] at ht
        cases ht
      | false =>
        have hp : ¬ i.isConsumer = true := by rw [hc]; exact Bool.false_ne_true
        simp only [Life.step, hres, Option.bind_some, if_neg hp] at ht
        obtain rfl := Option.some.inj ht
        exact h.topicNew lib hres hc clientRef topicName config succeeds
    | getOrCreateTopic name succeeds =>
      cases hc : i.isConsumer with
      | true =>
        simp only [Life.step, hres, Option.bind_some, if_pos hc] at ht
        cases ht
      | false =>
        have hp : ¬ i.isConsumer = true := by rw [hc]; exact Bool.false_ne_true
        simp only [Life.step, hres, Option.bind_some, if_neg hp] at ht
        obtain rfl := Option.some.inj ht
        exact h.getOrCreateTopic hres hc name succeeds
    | cleanup =>
      simp only [Life.step, hres, Option.map_some] at ht
      obtain rfl := Option.some.inj ht
      exact h.cleanup hres (honce i hres)
    | thread n =>
      simp only [Life.step, hres, Option.bind_some] at ht
      split at ht
      · cases ht
      · next c rest hthread =>
        obtain rfl := Option.some.inj ht
        refine h.make hres (run_singleton.trans (hi.step_thread hthread)) fun i' hi' => ?_
        obtain rfl := Option.some.inj hi'
        exact hi.perform hthread

/-- A client that is cleaned up again loses its first future. -/
theorem Life.Sound.lost (h : s.Sound) (hres : s.res = some i) {n : ℕ}
    (hn : i.closedFuture = some n) : ¬ (s.cleanup i).AllOwned := by
  intro hall
  have hi := h.res i hres
  have hne : s.next ≠ n := fun heq => (heq ▸ (hi.thread n hn).1).false
  have hall' := h.allOwned
  rw [AllOwned, hres] at hall'
  have hunwatch : run Call.step i.shape.heap (if i.kf then [.unwatch] else []) =
      some i.shape.heap := by
    split_ifs with hkf
    · exact run_singleton.trans (step_client hkf (by simp [Call.ops]))
    · rfl
  have hnone : i.shape.heap (.future s.next) = none :=
    if_neg (by simp [Resource.shape, hn, hne.symm])
  have hnew : Call.step i.shape.heap (.newFuture s.next) = some _ :=
    step_of_op rfl (step_create hnone)
  have hrun := run_append_some hall' (run_append_some hunwatch (run_singleton.trans hnew))
  -- the first future is there, but no field holds it
  have heq := congrFun (Option.some.inj (hrun.symm.trans hall)) (.future n)
  simp [heapOf, Life.cleanup, Shape.heap, Resource.shape, hn, hne, hne.symm, Function.update] at heq

end Invariant

/-- **No misuse and no leak, exactly.** Whatever the arguments, the answers of the library and the
order of the calls are, everything is owned all along a run exactly when no client is cleaned up
twice. -/
theorem always_allOwned_iff (lib : Librdkafka κ τ) {es : List LifeEvent} {t : Life}
    (hrun : run (Life.step lib) .start es = some t) :
    Always (Life.step lib) Life.AllOwned .start es ↔
      Along (Life.step lib) CleanedOnce .start es := by
  refine always_iff_along_of_lost (fun s hs => hs.allOwned) (fun s e t hs ht honce =>
    hs.step lib ht honce) (fun s e t hs ht hagain => ?_) sound_start hrun
  cases e with
  | cleanup =>
    cases hres : s.res with
    | none => exact absurd (fun i hi => by rw [hres] at hi; cases hi) hagain
    | some i =>
      simp only [Life.step, hres, Option.map_some] at ht
      obtain rfl := Option.some.inj ht
      cases hfuture : i.closedFuture with
      | some n => exact hs.lost hres hfuture
      | none =>
        refine absurd (fun j hj => ?_) hagain
        rw [hres] at hj
        exact Option.some.inj hj ▸ hfuture
  | _ => exact absurd trivial hagain

/-- A library that accepts every option. -/
def sampleLibrary : Librdkafka (List UInt8 → Option (List UInt8)) (List UInt8 → Option (List UInt8))
    where
  confNew _ := none
  confSet := sampleSet
  topicConfNew _ := none
  topicConfSet := sampleSet
  sigio := none
  err2str _ := "Local: Invalid argument or configuration"

/-- A consumer cannot subscribe. A producer is created and gets a topic, which cannot be created
again; it is cleaned up, and freed before the thread has sent its message. -/
def sampleLife : List LifeEvent :=
  [.consumerNew ⟨.binary [103], ofList [.binary [116]], .nil, .nil⟩ ⟨true, true, .ok (), -186, 0⟩,
    .producerNew (.atom "true") .nil ⟨true, true, .ok (), 0, 1⟩,
    .topicNew (.ref 1) (.binary [116]) .nil true, .topicNew (.ref 1) (.binary [116]) .nil true,
    .copy, .cleanup, .thread 2, .drop, .drop]

theorem allOwned_sampleLife :
    Always (Life.step sampleLibrary) Life.AllOwned .start sampleLife := by
  refine (always_allOwned_iff sampleLibrary (t := ⟨none, 3, _⟩) rfl).2 ?_
  refine (along_cons rfl).2 ⟨trivial, (along_cons rfl).2 ⟨trivial, (along_cons rfl).2 ⟨trivial,
    (along_cons rfl).2 ⟨trivial, (along_cons rfl).2 ⟨trivial, (along_cons rfl).2 ⟨?_, ?_⟩⟩⟩⟩⟩⟩
  · rintro i ⟨⟩
    rfl
  · exact along_of_forall_mem (by simp [CleanedOnce])

end Exrdkafka.Nif.Owned
