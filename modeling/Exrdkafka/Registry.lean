import Exrdkafka.ClientManager
import Exrdkafka.Foundations.Machine

/-!
# The registry of clients

The cache is the registry of the running clients: a start is refused when the cache has the id, and
the calls of the library reach a client through its entry. The clients are started, they crash and
are restarted, and they end, in any order; every event is taken as a whole, restarts included.

* `Accurate`: the cache has exactly the running clients, a start that fails leaves it alone, and a
  client is called existing only when it runs.
* `always_accurate_iff`: the registry is accurate exactly in the runs in which no producer fails to
  open its local queue, no running client ends, and the supervisor never gives up while a client
  runs, unless the application ends with it.
-/

namespace Exrdkafka.Registry

open Machine ClientSupervisor ClientManager

/-! ## The machine -/

/-- A start call: what it returned, the cache before and after, and whether a client with this id
was running. -/
structure Call where
  clientId : String
  reply : Reply
  before : CacheClient.Table
  after : CacheClient.Table
  running : Bool

/-- The clients, and the start calls so far. -/
structure State where
  clients : Clients
  calls : List Call

/-- What can happen. -/
inductive Event where
  | createProducer (clientId : String) (config : Term) (env : Env)
  | createConsumerGroup (clientId : String) (topics clientConfig defaultTopicsConfig : Term)
      (env : Env)
  /-- a client crashes, and the attempts to restart it meet `attempts` -/
  | crash (clientId : String) (attempts : List Env)
  /-- a client ends normally -/
  | ended (clientId : String)
  /-- a client is removed from the supervisor -/
  | remove (clientId : String)

namespace State

/-- A start call has returned. -/
def called (s : State) (clientId : String) (result : Clients × Reply) : State where
  clients := result.1
  calls := s.calls ++
    [⟨clientId, result.2, s.clients.cache, result.1.cache, (s.clients.pidOf clientId).isSome⟩]

/-- One event of a running application. -/
def next (s : State) : Event → Option State
  | .createProducer clientId config env =>
    some (s.called clientId (createProducer s.clients clientId config env))
  | .createConsumerGroup clientId topics clientConfig defaultTopicsConfig env =>
    some (s.called clientId
      (internalStartConsumer s.clients clientId topics clientConfig defaultTopicsConfig env))
  | .crash clientId attempts =>
    match s.clients.children clientId with
    | some ⟨spec, some _⟩ =>
      (restartClient clientId spec s.clients attempts).map fun c => { s with clients := c }
    | _ => none
  | .ended clientId =>
    match s.clients.children clientId with
    | some ⟨spec, some _⟩ => some { s with clients := clientEnded s.clients clientId spec }
    | _ => none
  | .remove clientId => some { s with clients := (removeClient s.clients clientId).1 }

/-- One event, as long as the application runs. -/
def step (s : State) (e : Event) : Option State := if s.clients.up then s.next e else none

theorem step_eq_some {s t : State} {e : Event} :
    s.step e = some t ↔ s.clients.up = true ∧ s.next e = some t := by
  rw [step]
  split_ifs with hup <;> simp [hup]

/-- Before the first start. -/
def start : State := ⟨.empty, []⟩

end State

/-! ## Accuracy -/

/-- The entry of an id is the process that runs under it. -/
def AgreesAt (c : Clients) (clientId : String) : Prop :=
  (CacheClient.get c.cache clientId).map CacheClient.Entry.clientPid = c.pidOf clientId

/-- **The registry is accurate.** -/
structure Accurate (s : State) : Prop where
  /-- As long as the application runs, the cache has an entry exactly for the running clients, with
  their processes. -/
  agrees : s.clients.up = true → ∀ clientId, AgreesAt s.clients clientId
  /-- A start that fails leaves the cache as it was. -/
  failed : ∀ call ∈ s.calls, call.reply ≠ .ok → call.after = call.before
  /-- A client is called existing only when it runs. -/
  existing : ∀ call ∈ s.calls, call.reply = .errAlreadyExistingClient → call.running

theorem AgreesAt.register {c : Clients} {clientId other : String} (h : AgreesAt c other)
    (hne : other ≠ clientId) (ref : Term) : AgreesAt (c.register clientId ref) other := by
  rw [AgreesAt, Clients.register, CacheClient.get_set_of_ne _ _ _ hne]
  exact h

theorem AgreesAt.setChild {c : Clients} {clientId other : String} (h : AgreesAt c other)
    (hne : other ≠ clientId) (child : Option Child) :
    AgreesAt (c.setChild clientId child) other := by
  rw [AgreesAt, Clients.pidOf_setChild_of_ne _ _ hne]
  exact h

/-- A client that has started is in the cache with its process. -/
theorem agreesAt_started {c : Clients} {clientId : String} (spec : ChildSpec)
    (h : ∀ other, other ≠ clientId → AgreesAt c other) (other : String) :
    AgreesAt ((c.register clientId spec.ref).setChild clientId (some ⟨spec, some c.nextPid⟩))
      other := by
  by_cases hne : other = clientId
  · rw [hne, AgreesAt, Clients.pidOf_setChild_self, Clients.setChild_cache, Clients.register,
      CacheClient.get_set_self]
    rfl
  · exact ((h other hne).register hne _).setChild hne _

/-- A client that does not run but is in the cache. -/
theorem not_agreesAt {c : Clients} {clientId : String}
    (hentry : (CacheClient.get c.cache clientId).isSome) (hpid : c.pidOf clientId = none) :
    ¬ AgreesAt c clientId := by
  intro h
  obtain ⟨e, he⟩ := Option.isSome_iff_exists.1 hentry
  rw [AgreesAt, he, hpid] at h
  cases h

/-- A running client is in the cache. -/
theorem AgreesAt.isSome {c : Clients} {clientId : String} {child : Child} {pid : ℕ}
    (h : AgreesAt c clientId) (hchild : c.children clientId = some child)
    (hpid : child.pid = some pid) : (CacheClient.get c.cache clientId).isSome := by
  have hpidOf : c.pidOf clientId = some pid := by rw [Clients.pidOf, hchild, Option.bind_some, hpid]
  rw [AgreesAt, hpidOf] at h
  obtain ⟨e, he, -⟩ := Option.map_eq_some_iff.1 h
  exact Option.isSome_iff_exists.2 ⟨e, he⟩

/-! ## Starts -/

/-- A start that leaves no entry without a process: the id is taken, the start is refused before the
process is in the cache, or it succeeds. -/
inductive CleanStart (c : Clients) (clientId : String) : Clients × Reply → Prop
  | existing (hentry : (CacheClient.get c.cache clientId).isSome) :
      CleanStart c clientId (c, .errAlreadyExistingClient)
  | refused {c' : Clients} {reply : Reply} (hcache : c'.cache = c.cache)
      (hchildren : c'.children = c.children) (hreply : reply ≠ .errAlreadyExistingClient) :
      CleanStart c clientId (c', reply)
  | started (spec : ChildSpec) : CleanStart c clientId
      ((c.register clientId spec.ref).setChild clientId (some ⟨spec, some c.nextPid⟩), .ok)

/-- A child specification is started only when there is none under the id. -/
theorem addClient_cases (c : Clients) (clientId : String) (spec : ChildSpec) (env : Env) :
    (∃ result, addClient c clientId spec env = (c, result)) ∨
      c.children clientId = none ∧
        ((spec.Starts env ∧ addClient c clientId spec env =
            ((c.register clientId spec.ref).setChild clientId (some ⟨spec, some c.nextPid⟩),
              .ok c.nextPid)) ∨
          (¬ spec.Starts env ∧ addClient c clientId spec env =
            ((startLink c clientId env spec).1, .failed))) := by
  cases hchild : c.children clientId with
  | some child =>
    obtain ⟨_, pid⟩ := child
    refine Or.inl ?_
    cases pid with
    | none => exact ⟨.alreadyPresent, by simp only [addClient, hchild]⟩
    | some pid => exact ⟨.alreadyStarted pid, by simp only [addClient, hchild]⟩
  | none =>
    refine Or.inr ⟨rfl, ?_⟩
    by_cases hstarts : spec.Starts env
    · exact Or.inl ⟨hstarts, by simp only [addClient, hchild, startLink_of_starts hstarts]⟩
    · refine Or.inr ⟨hstarts, ?_⟩
      rcases startLink_of_not_starts hstarts c clientId with h | h <;>
        simp only [addClient, hchild, h]

/-- Adding a client is clean unless it leaves the entry of a dead process. -/
theorem cleanStart_addClient {c : Clients} {clientId : String} {spec : ChildSpec} {env : Env}
    (h : ¬ spec.Starts env → c.children clientId = none →
      startLink c clientId env spec = (c.spawn, none)) :
    CleanStart c clientId ((addClient c clientId spec env).1,
      .ofStartChild (addClient c clientId spec env).2) := by
  rcases addClient_cases c clientId spec env with ⟨result, hadd⟩ | ⟨hchild, ⟨_, hadd⟩ | ⟨hno, hadd⟩⟩
  · rw [hadd]
    exact .refused rfl rfl (by cases result <;> simp [Reply.ofStartChild])
  · rw [hadd]
    exact .started spec
  · rw [hadd, h hno hchild]
    exact .refused rfl rfl (by simp [Reply.ofStartChild])

/-- The check of the topics raises, and the manager crashes. -/
def ManagerCrashes (c : Clients) (clientId : String) (topics : Term) : Prop :=
  CacheClient.get c.cache clientId = none ∧ validConsumerTopics topics = none

instance (c : Clients) (clientId : String) (topics : Term) :
    Decidable (ManagerCrashes c clientId topics) := inferInstanceAs (Decidable (_ ∧ _))

theorem internalStartConsumer_of_crashes {c : Clients} {clientId : String} {topics : Term}
    (h : ManagerCrashes c clientId topics) (clientConfig defaultTopicsConfig : Term) (env : Env) :
    internalStartConsumer c clientId topics clientConfig defaultTopicsConfig env =
      (managerCrashed c env, .exit) := by
  simp only [internalStartConsumer, h.1, h.2]

/-- Starting a consumer group is clean unless the supervisor gives up: it is in the cache only once
it has its consumer. -/
theorem cleanStart_createConsumerGroup {c : Clients} {clientId : String} {topics : Term} {env : Env}
    (h : ¬ (ManagerCrashes c clientId topics ∧ Exceeds env.time c.restarts))
    (clientConfig defaultTopicsConfig : Term) :
    CleanStart c clientId
      (internalStartConsumer c clientId topics clientConfig defaultTopicsConfig env) := by
  unfold internalStartConsumer
  split
  · next e hentry => exact .existing (by rw [hentry]; rfl)
  · next hentry =>
    split
    · next htopics =>
      rw [managerCrashed, if_neg fun hexceeds => h ⟨⟨hentry, htopics⟩, hexceeds⟩]
      exact .refused rfl rfl (by simp)
    · exact .refused rfl rfl (by simp)
    · split
      · exact .refused rfl rfl (by simp)
      · split
        · exact .refused rfl rfl (by simp)
        · exact cleanStart_addClient fun hno _ => startLink_consumerGroup hno c clientId

/-- The start of a producer gets as far as opening the local queue. -/
def OpensQueue (c : Clients) (clientId : String) (config : Term) (env : Env) : Prop :=
  (∃ own rdk, Config.convertKafkaConfig config = .ok own rdk) ∧
    CacheClient.get c.cache clientId = none ∧ (∃ ref, env.new = .ok ref) ∧
    c.children clientId = none

/-- Starting a producer is clean if the local queue opens. -/
theorem cleanStart_createProducer {c : Clients} {clientId : String} {config : Term} {env : Env}
    (h : OpensQueue c clientId config env → env.localQueue.isSome) :
    CleanStart c clientId (createProducer c clientId config env) := by
  unfold createProducer
  split
  · exact .refused rfl rfl (by simp)
  · next own rdk hconfig =>
    unfold internalStartProducer
    split
    · next hentry =>
      unfold startNewProducer
      split
      · exact .refused rfl rfl (by simp)
      · next ref hnew =>
        refine cleanStart_addClient fun hno hchild => absurd ?_ hno
        exact h ⟨⟨own, rdk, hconfig⟩, hentry, ⟨ref, hnew⟩, hchild⟩
    · next e hentry => exact .existing (by rw [hentry]; rfl)

/-- A producer that fails to open its local queue stays in the cache. -/
theorem createProducer_orphan {c : Clients} {clientId : String} {config : Term} {env : Env}
    (h : OpensQueue c clientId config env) (hqueue : env.localQueue = none) :
    ∃ ref, createProducer c clientId config env =
      (c.register clientId ref, .notStarted .failed) := by
  obtain ⟨⟨own, rdk, hconfig⟩, hentry, ⟨ref, hnew⟩, hchild⟩ := h
  refine ⟨ref, ?_⟩
  simp only [createProducer, hconfig, internalStartProducer, hentry, startNewProducer, hnew,
    addClient, hchild, startLink_producer hqueue, Reply.ofStartChild]

/-- A start that fails has not touched the cache, and one that is refused because the client exists
is right: then accuracy is a matter of the entries. -/
theorem Accurate.called_iff {s : State} (h : Accurate s) {clientId : String}
    {result : Clients × Reply} (hfailed : result.2 ≠ .ok → result.1.cache = s.clients.cache)
    (hexisting : result.2 = .errAlreadyExistingClient → (s.clients.pidOf clientId).isSome) :
    Accurate (s.called clientId result) ↔
      (result.1.up = true → ∀ other, AgreesAt result.1 other) := by
  refine ⟨Accurate.agrees, fun hagrees => ⟨hagrees, fun call hcall => ?_, fun call hcall => ?_⟩⟩ <;>
    rcases List.mem_append.1 hcall with hcall | hcall
  · exact h.failed call hcall
  · obtain rfl := List.mem_singleton.1 hcall
    exact hfailed
  · exact h.existing call hcall
  · obtain rfl := List.mem_singleton.1 hcall
    exact hexisting

theorem Accurate.called {s : State} (h : Accurate s) (hup : s.clients.up = true) {clientId : String}
    {result : Clients × Reply} (hclean : CleanStart s.clients clientId result) :
    Accurate (s.called clientId result) := by
  cases hclean with
  | existing hentry =>
    refine (h.called_iff (fun _ => rfl) fun _ => ?_).2 h.agrees
    have hagrees := congrArg Option.isSome (h.agrees hup clientId)
    rwa [Option.isSome_map, hentry, eq_comm] at hagrees
  | refused hcache hchildren hreply =>
    refine (h.called_iff (fun _ => hcache) fun heq => absurd heq hreply).2 fun _ other => ?_
    have hagrees := h.agrees hup other
    unfold AgreesAt Clients.pidOf at hagrees ⊢
    rwa [hcache, hchildren]
  | started spec =>
    refine (h.called_iff (fun hok => absurd rfl hok) fun heq => by cases heq).2 fun _ other => ?_
    exact agreesAt_started spec (fun other _ => h.agrees hup other) other

/-! ## Crashes -/

/-- The others have not noticed that a client could not be restarted yet. -/
theorem AgreesAt.tried {c d : Clients} {clientId other : String} (h : AgreesAt c other)
    (hne : other ≠ clientId) (htried : Tried clientId c d) : AgreesAt d other := by
  unfold AgreesAt Clients.pidOf at h ⊢
  rwa [htried.others other hne, htried.children]

/-- When the supervisor gives up, the entries agree only if there are none, or if the application
ends. -/
theorem agrees_giveUp (c : Clients) (later : ℕ) :
    ((giveUp c later).up = true → ∀ clientId, AgreesAt (giveUp c later) clientId) ↔
      (∀ clientId, CacheClient.get c.cache clientId = none) ∨ Exceeds later c.appRestarts := by
  have hagreesAt : ∀ clientId, AgreesAt (giveUp c later) clientId ↔
      CacheClient.get c.cache clientId = none := fun _ => Option.map_eq_none_iff
  simp only [hagreesAt, up_giveUp, or_iff_not_imp_right]

/-- The restart that is one too many, if the event comes to it: the supervisor gives up. -/
def Event.oneTooMany (c : Clients) : Event → Option Env
  | .createConsumerGroup clientId topics _ _ env =>
    if ManagerCrashes c clientId topics ∧ Exceeds env.time c.restarts then some env else none
  | .crash clientId attempts =>
    (c.children clientId).bind fun child =>
      ClientSupervisor.oneTooMany child.spec c.restarts attempts
  | _ => none

/-- A start of the supervisor does not end the application. -/
theorem up_addClient (c : Clients) (clientId : String) (spec : ChildSpec) (env : Env) :
    (addClient c clientId spec env).1.up = c.up := by
  rcases addClient_cases c clientId spec env with ⟨result, hadd⟩ | ⟨_, ⟨_, hadd⟩ | ⟨hno, hadd⟩⟩
  · rw [hadd]
  · rw [hadd]
    rfl
  · rw [hadd]
    rcases startLink_of_not_starts hno c clientId with hlink | hlink <;> rw [hlink] <;> rfl

theorem up_createProducer (c : Clients) (clientId : String) (config : Term) (env : Env) :
    (createProducer c clientId config env).1.up = c.up := by
  unfold createProducer internalStartProducer startNewProducer
  split
  · rfl
  · split
    · split
      · rfl
      · exact up_addClient ..
    · rfl

theorem up_internalStartConsumer {c : Clients} {clientId : String} {topics : Term}
    (h : ¬ ManagerCrashes c clientId topics) (clientConfig defaultTopicsConfig : Term) (env : Env) :
    (internalStartConsumer c clientId topics clientConfig defaultTopicsConfig env).1.up = c.up := by
  unfold internalStartConsumer
  split
  · rfl
  · next hentry =>
    split
    · next htopics => exact absurd ⟨hentry, htopics⟩ h
    · rfl
    · split
      · rfl
      · split
        · rfl
        · exact up_addClient ..

/-- The application goes on unless the supervisor has given up and was restarted too often. -/
theorem up_next {s t : State} {e : Event} (hup : s.clients.up = true) (hnext : s.next e = some t) :
    t.clients.up = true ↔
      ∀ env ∈ e.oneTooMany s.clients, ¬ Exceeds env.later s.clients.appRestarts := by
  cases e with
  | createProducer clientId config env =>
    obtain rfl := Option.some.inj hnext
    refine iff_of_true ((up_createProducer ..).trans hup) ?_
    simp [Event.oneTooMany]
  | createConsumerGroup clientId topics clientConfig defaultTopicsConfig env =>
    obtain rfl := Option.some.inj hnext
    simp only [State.called, Event.oneTooMany]
    by_cases hcrashes : ManagerCrashes s.clients clientId topics
    · rw [internalStartConsumer_of_crashes hcrashes, managerCrashed]
      by_cases hexceeds : Exceeds env.time s.clients.restarts
      · rw [if_pos hexceeds, if_pos ⟨hcrashes, hexceeds⟩, up_giveUp]
        simp
      · rw [if_neg hexceeds, if_neg fun hboth => hexceeds hboth.2]
        exact iff_of_true hup (by simp)
    · rw [up_internalStartConsumer hcrashes, if_neg fun hboth => hcrashes hboth.1]
      exact iff_of_true hup (by simp)
  | crash clientId attempts =>
    simp only [State.next] at hnext
    split at hnext
    · next spec pid hchild =>
      obtain ⟨c, hrestart, rfl⟩ := Option.map_eq_some_iff.1 hnext
      have hrestarted := restarted_of_restartClient hrestart
      simp only [Event.oneTooMany, hchild, Option.bind_some]
      generalize ClientSupervisor.oneTooMany spec s.clients.restarts attempts = exceeded
        at hrestarted ⊢
      cases hrestarted with
      | started htried => exact iff_of_true (htried.up.trans hup) (by simp)
      | gaveUp htried env => rw [up_giveUp, htried.appRestarts]; simp
    · cases hnext
  | ended clientId =>
    simp only [State.next] at hnext
    split at hnext
    · obtain rfl := Option.some.inj hnext
      exact iff_of_true hup (by simp [Event.oneTooMany])
    · cases hnext
  | remove clientId =>
    obtain rfl := Option.some.inj hnext
    exact iff_of_true hup (by simp [Event.oneTooMany])

/-! ## Runs -/

/-- The event leaves no entry without a process: no producer fails to open its local queue, no
running client ends, and when the supervisor gives up no client runs or the application ends. -/
def Tidy (s : State) : Event → Prop
  | .createProducer clientId config env =>
    OpensQueue s.clients clientId config env → env.localQueue.isSome
  | .ended _ => False
  | .remove clientId => s.clients.pidOf clientId = none
  | e => ∀ env ∈ e.oneTooMany s.clients,
    (∀ clientId, s.clients.pidOf clientId = none) ∨ Exceeds env.later s.clients.appRestarts

theorem accurate_start : Accurate State.start := by
  refine ⟨fun _ _ => rfl, ?_, ?_⟩ <;> simp [State.start]

section

variable {s : State} (h : Accurate s) (hup : s.clients.up = true)

include h hup

/-- An id has no entry exactly when no client runs under it. -/
theorem Accurate.get_eq_none_iff (clientId : String) :
    CacheClient.get s.clients.cache clientId = none ↔ s.clients.pidOf clientId = none := by
  rw [← h.agrees hup clientId, Option.map_eq_none_iff]

theorem accurate_createProducer (clientId : String) (config : Term) (env : Env) :
    Accurate (s.called clientId (createProducer s.clients clientId config env)) ↔
      (OpensQueue s.clients clientId config env → env.localQueue.isSome) := by
  refine ⟨fun ht hopens => ?_, fun htidy => h.called hup (cleanStart_createProducer htidy)⟩
  by_contra hqueue
  obtain ⟨ref, hresult⟩ := createProducer_orphan hopens (Option.not_isSome_iff_eq_none.1 hqueue)
  have hagrees := ht.agrees
  rw [hresult] at hagrees
  have hentry : (CacheClient.get (s.clients.register clientId ref).cache clientId).isSome := by
    simp [Clients.register]
  have hpid : (s.clients.register clientId ref).pidOf clientId = none := by
    have hchild := hopens.2.2.2
    simp [Clients.pidOf, Clients.register, hchild]
  exact not_agreesAt hentry hpid (hagrees hup clientId)

theorem accurate_createConsumerGroup (clientId : String)
    (topics clientConfig defaultTopicsConfig : Term) (env : Env) :
    Accurate (s.called clientId
        (internalStartConsumer s.clients clientId topics clientConfig defaultTopicsConfig env)) ↔
      (ManagerCrashes s.clients clientId topics ∧ Exceeds env.time s.clients.restarts →
        (∀ clientId, s.clients.pidOf clientId = none) ∨
          Exceeds env.later s.clients.appRestarts) := by
  by_cases hgivesUp : ManagerCrashes s.clients clientId topics ∧ Exceeds env.time s.clients.restarts
  · rw [internalStartConsumer_of_crashes hgivesUp.1, managerCrashed, if_pos hgivesUp.2,
      h.called_iff (fun _ => rfl) fun heq => by cases heq]
    simp only [agrees_giveUp, h.get_eq_none_iff hup, hgivesUp, and_self, true_imp_iff]
  · exact iff_of_true (h.called hup (cleanStart_createConsumerGroup hgivesUp _ _))
      fun hgivesUp' => absurd hgivesUp' hgivesUp

theorem accurate_crash {clientId : String} {spec : ChildSpec} {pid : ℕ} {attempts : List Env}
    {c : Clients} (hchild : s.clients.children clientId = some ⟨spec, some pid⟩)
    (hrestart : restartClient clientId spec s.clients attempts = some c) :
    Accurate { s with clients := c } ↔
      ∀ env ∈ oneTooMany spec s.clients.restarts attempts,
        (∀ clientId, s.clients.pidOf clientId = none) ∨
          Exceeds env.later s.clients.appRestarts := by
  have hiff : Accurate { s with clients := c } ↔ (c.up = true → ∀ other, AgreesAt c other) :=
    ⟨Accurate.agrees, fun hagrees => ⟨hagrees, h.failed, h.existing⟩⟩
  have hrestarted := restarted_of_restartClient hrestart
  rw [hiff]
  generalize oneTooMany spec s.clients.restarts attempts = exceeded at hrestarted ⊢
  cases hrestarted with
  | started htried =>
    refine iff_of_true (fun _ => agreesAt_started spec fun other hne => ?_) (by simp)
    exact (h.agrees hup other).tried hne htried
  | @gaveUp d htried env =>
    have hentry := (h.agrees hup clientId).isSome hchild rfl
    have hsome : ¬ ∀ clientId, CacheClient.get d.cache clientId = none := fun hnone => by
      have hkept := htried.kept hentry
      rw [hnone clientId] at hkept
      cases hkept
    have hruns : ¬ ∀ clientId, s.clients.pidOf clientId = none := fun hnone => by
      rw [(h.get_eq_none_iff hup clientId).2 (hnone clientId)] at hentry
      cases hentry
    simp only [agrees_giveUp, hsome, hruns, htried.appRestarts, false_or, Option.mem_def,
      Option.some.injEq, forall_eq']

/-- The entry of a client outlives it. -/
theorem not_accurate_ended {clientId : String} {spec : ChildSpec} {pid : ℕ}
    (hchild : s.clients.children clientId = some ⟨spec, some pid⟩) :
    ¬ Accurate { s with clients := clientEnded s.clients clientId spec } := by
  intro ht
  have hentry : (CacheClient.get (clientEnded s.clients clientId spec).cache clientId).isSome :=
    (h.agrees hup clientId).isSome hchild rfl
  have hpid : (clientEnded s.clients clientId spec).pidOf clientId = none :=
    Clients.pidOf_setChild_self ..
  exact not_agreesAt hentry hpid (ht.agrees hup clientId)

theorem accurate_remove (clientId : String) :
    Accurate { s with clients := (removeClient s.clients clientId).1 } ↔
      s.clients.pidOf clientId = none := by
  have hat : AgreesAt (removeClient s.clients clientId).1 clientId ↔
      s.clients.pidOf clientId = none := by
    rw [AgreesAt, removeClient, Clients.pidOf_setChild_self, ← h.agrees hup clientId]
    rfl
  refine ⟨fun ht => hat.1 (ht.agrees hup clientId),
    fun hpid => ⟨fun _ other => ?_, h.failed, h.existing⟩⟩
  by_cases hne : other = clientId
  · rw [hne]
    exact hat.2 hpid
  · exact (h.agrees hup other).setChild hne _

end

theorem accurate_step {s t : State} {e : Event} (h : Accurate s) (hstep : s.step e = some t) :
    Accurate t ↔ Tidy s e := by
  obtain ⟨hup, hnext⟩ := State.step_eq_some.1 hstep
  cases e with
  | createProducer clientId config env =>
    obtain rfl := Option.some.inj hnext
    exact accurate_createProducer h hup clientId config env
  | createConsumerGroup clientId topics clientConfig defaultTopicsConfig env =>
    obtain rfl := Option.some.inj hnext
    rw [accurate_createConsumerGroup h hup]
    simp [Tidy, Event.oneTooMany]
  | crash clientId attempts =>
    simp only [State.next] at hnext
    split at hnext
    · next spec pid hchild =>
      obtain ⟨c, hrestart, rfl⟩ := Option.map_eq_some_iff.1 hnext
      rw [accurate_crash h hup hchild hrestart]
      simp only [Tidy, Event.oneTooMany, hchild, Option.bind_some]
    · cases hnext
  | ended clientId =>
    simp only [State.next] at hnext
    split at hnext
    · next spec pid hchild =>
      obtain rfl := Option.some.inj hnext
      exact iff_of_false (not_accurate_ended h hup hchild) id
    · cases hnext
  | remove clientId =>
    obtain rfl := Option.some.inj hnext
    exact accurate_remove h hup clientId

/-- **When the registry is accurate.** In every run of starts, crashes and ends, the registry is
accurate all along exactly when no producer fails to open its local queue, no running client ends,
and the supervisor never gives up while a client runs, unless the application ends with it. -/
theorem always_accurate_iff {es : List Event} {s : State}
    (hrun : run State.step .start es = some s) :
    Always State.step Accurate .start es ↔ Along State.step Tidy .start es :=
  always_iff_along (I := fun _ => True) (fun _ _ _ _ _ => trivial)
    (fun _ _ _ _ => accurate_step) trivial accurate_start hrun

/-- A start with a client and an empty local queue. -/
def allFine : Env := { new := .ok (.ref 0), localQueue := some [] }

/-- A start with a client whose local queue cannot be opened. -/
def noQueue : Env := { new := .ok (.ref 0), localQueue := none }

/-- A producer that cannot open its local queue: the start fails, and the next one is refused with
`:err_already_existing_client`. -/
theorem noQueue_orphan : ¬ Always State.step Accurate .start
    [.createProducer "p" .nil noQueue, .createProducer "p" .nil allFine] := by
  intro h
  have hexisting := (h.last rfl).existing ⟨"p", .errAlreadyExistingClient, _, _, false⟩
    (List.mem_cons_of_mem _ (List.mem_singleton_self _)) rfl
  cases hexisting

/-- A topic with its callback module. -/
def goodTopics : Term :=
  .cons (.tuple [.binary [116], .cons (.tuple [.atom "callback_module", .atom "m"]) .nil]) .nil

/-- A topic whose settings are no property list: `valid_consumer_topics` raises. -/
def badTopics : Term := .cons (.tuple [.binary [116], .cons (.atom "x") .nil]) .nil

-- four crashes of the manager within the period: the producer has ended, and its entry stays
example : ∃ s, run State.step .start (.createProducer "p" .nil allFine ::
      List.replicate 4 (.createConsumerGroup "c" badTopics .nil .nil allFine)) = some s ∧
    s.clients.pidOf "p" = none ∧ (CacheClient.get s.clients.cache "p").isSome :=
  ⟨_, rfl, rfl, rfl⟩

/-- A producer and a consumer group; the producer crashes, and its second restart succeeds; then the
manager crashes. -/
theorem always_accurate_iff_sample :
    Always State.step Accurate .start
        [.createProducer "p" .nil allFine, .createConsumerGroup "c" goodTopics .nil .nil allFine,
          .crash "p" [noQueue, allFine], .createConsumerGroup "d" badTopics .nil .nil allFine] ↔
      Along State.step Tidy .start
        [.createProducer "p" .nil allFine, .createConsumerGroup "c" goodTopics .nil .nil allFine,
          .crash "p" [noQueue, allFine], .createConsumerGroup "d" badTopics .nil .nil allFine] :=
  always_accurate_iff rfl

end Exrdkafka.Registry
