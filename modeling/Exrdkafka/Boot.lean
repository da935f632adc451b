import Exrdkafka.Api.Create
import Exrdkafka.Registry.Lasting

/-!
# Starting the application

`Exrdkafka.Application` creates the cache and starts the supervisor of the clients and, after it,
`Exrdkafka.Clients`, whose `init` starts the clients and the topics that the environment lists.
Every answer other than `:ok` raises there. When `Exrdkafka.Clients` crashes later, it is started
again, while the cache and the clients are those of before. `Exrdkafka.Supervisor` counts these
restarts together with those of the supervisor of the clients.

* `startClients_completed_iff`: a list of clients is started to its end exactly when the ids are
  distinct and free and each of its clients can be started.
* `Lasting`: the cache never forgets a client, and no id is started twice.
* `up_iff_of_run`: the application comes up exactly when its list can be started, and stays up
  exactly as long as `Exrdkafka.Supervisor` does not have to restart too often and, unless the list
  is empty, `Exrdkafka.Clients` does not crash.
-/

namespace Exrdkafka.Boot

open ClientManager ClientSupervisor Config Machine Registry Utils

/-! ## The list of clients -/

/-- An element of `:clients`, with its properties `c`. -/
structure Entry where
  clientId : String
  c : List (Term × Term)

namespace Entry

/-- `type` -/
def type (e : Entry) : Term := lookup (.atom "type") e.c

/-- `client_opts` -/
def clientOpts (e : Entry) : Term := lookup (.atom "client_options") e.c .nil

/-- `topics` -/
def topics (e : Entry) : Term := lookup (.atom "topics") e.c .nil

/-- `default_topics_config` -/
def defaultTopicsConfig (e : Entry) : Term := lookup (.atom "topic_options") e.c .nil

end Entry

/-- What the start of an element meets. -/
structure EntryEnv extends Env where
  /-- the result of `producer_topic_new` for the `n`th of its topics -/
  topicNew : ℕ → Term

/-- The pairs of a property list; `none` for any other term. -/
def propsOf : Term → Option (List (Term × Term))
  | .nil => some []
  | .cons (.tuple [k, v]) t => (propsOf t).map ((k, v) :: ·)
  | _ => none

/-! ## Topics -/

/-- A call of `ExrdkafkaNif.producer_topic_new`, and its result. -/
structure TopicNew where
  clientRef : Term
  topicName : Term
  topicConfig : List Term
  result : Term
  deriving DecidableEq

/-- What `Exrdkafka.create_topic` returns. -/
inductive TopicReply where
  /-- what `producer_topic_new` returned -/
  | returned (result : Term)
  /-- what the conversion has caught -/
  | badConfig (reason : Caught)
  /-- `{:error, :err_undefined_client}` -/
  | errUndefinedClient
  deriving DecidableEq

/-- `Exrdkafka.create_topic`: the call it makes, if any, which returns `result`, and its reply. -/
def createTopic (cache : CacheClient.Table) (clientId : String)
    (topicName topicConfig result : Term) : Option TopicNew × TopicReply :=
  match CacheClient.get cache clientId with
  | none => (none, .errUndefinedClient)
  | some e =>
    match convertTopicConfig topicConfig with
    | .caught reason => (none, .badConfig reason)
    | .ok _ rdk => (some ⟨e.clientRef, topicName, rdk, result⟩, .returned result)

/-- The name and the options of an element of `topics`; `none` when no clause matches. -/
def topicOf : Term → Option (Term × Term)
  | .tuple [topicName, topicOpts] => some (topicName, topicOpts)
  | .binary topicName => some (.binary topicName, .nil)
  | _ => none

/-- `create_topics`: the calls of `producer_topic_new`, and whether it returns. -/
def createTopics (cache : CacheClient.Table) (clientId : String) :
    (ℕ → Term) → Term → List TopicNew × Bool
  | _, .nil => ([], true)
  | topicNew, .cons h t =>
    match topicOf h with
    | none => ([], false)
    | some (topicName, topicOpts) =>
      match createTopic cache clientId topicName topicOpts (topicNew 0) with
      | (call, .returned (.atom "ok")) =>
        let (calls, completed) := createTopics cache clientId (fun i => topicNew (i + 1)) t
        (call.toList ++ calls, completed)
      | (call, _) => (call.toList, false)
  | _, _ => ([], false)

/-! ## Clients -/

/-- The clients, and the topics that were created. -/
structure Node where
  registry : Registry.State
  topics : List TopicNew

namespace Node

/-- The clients and their cache. -/
def clients (n : Node) : Clients := n.registry.clients

/-- The application runs. -/
def up (n : Node) : Bool := n.clients.up

/-- The supervisor of the application goes on, or the application has ended. -/
def setUp (n : Node) (up : Bool) : Node :=
  { n with registry := { n.registry with clients := { n.registry.clients with up } } }

/-- The supervisor of the application counts a restart. -/
def countRestart (n : Node) (now : ℕ) : Node :=
  { n with registry := { n.registry with clients := { n.registry.clients with
    appRestarts := addRestart now n.registry.clients.appRestarts } } }

/-- A start call has returned. -/
def called (n : Node) (clientId : String) (result : Clients × Reply) : Node :=
  { n with registry := n.registry.called clientId result }

end Node

/-- `start_client`, and whether it returns. Options that are no property list make every conversion
fail, before anything is started. -/
def startClient (globals : Term) (n : Node) (e : Entry) (env : EntryEnv) : Node × Bool :=
  if e.type = .atom "producer" then
    match (propsOf e.clientOpts).bind fun opts =>
      Api.createProducer n.clients globals e.clientId opts env.toEnv with
    | none => (n, false)
    | some result =>
      let n := n.called e.clientId result
      if result.2 = .ok then
        let (calls, completed) := createTopics n.clients.cache e.clientId env.topicNew e.topics
        ({ n with topics := n.topics ++ calls }, completed)
      else (n, false)
  else if e.type = .atom "consumer" then
    match (propsOf e.clientOpts).bind fun opts =>
      Api.createConsumerGroup n.clients globals e.clientId e.topics opts e.defaultTopicsConfig
        env.toEnv with
    | none => (n, false)
    | some result => (n.called e.clientId result, result.2 = .ok)
  else (n, false)

/-- `start_clients`, on the elements of `:clients`. -/
def startClients (globals : Term) : (ℕ → EntryEnv) → Node → List Entry → Node × Bool
  | _, n, [] => (n, true)
  | envs, n, e :: rest =>
    match startClient globals n e (envs 0) with
    | (n, true) => startClients globals (fun i => envs (i + 1)) n rest
    | (n, false) => (n, false)

/-! ## The application -/

/-- `Exrdkafka.Application.start` -/
def applicationStart (globals : Term) (config : List Entry) (envs : ℕ → EntryEnv) : Node :=
  let (n, completed) := startClients globals envs ⟨.start, []⟩ config
  n.setUp completed

/-- The restarts of `Exrdkafka.Clients`, by the time of each and what its start meets: the first
that completes is the last, and with one too many the application ends. -/
def restartClients (globals : Term) (config : List Entry) :
    Node → List (ℕ × (ℕ → EntryEnv)) → Option Node
  | _, [] => none
  | n, (now, envs) :: attempts =>
    if Exceeds now n.clients.appRestarts then some (n.setUp false)
    else
      match startClients globals envs (n.countRestart now) config with
      | (n, true) => some n
      | (n, false) => restartClients globals config n attempts

/-- What can happen to the application. -/
inductive NodeEvent where
  | client (e : Registry.Event)
  /-- `Exrdkafka.Clients` crashes, and the attempts to restart it meet `attempts` -/
  | clientsCrash (attempts : List (ℕ × (ℕ → EntryEnv)))

/-- One event, as long as the application runs. -/
def Node.step (globals : Term) (config : List Entry) (n : Node) : NodeEvent → Option Node
  | .client e => (n.registry.step e).map fun r => { n with registry := r }
  | .clientsCrash attempts => if n.up then restartClients globals config n attempts else none

/-- The event does not make `Exrdkafka.Supervisor` give up: a restart of the supervisor of the
clients, or of `Exrdkafka.Clients`, is not one too many, and that of the latter succeeds at once. -/
def Spares (config : List Entry) (n : Node) : NodeEvent → Prop
  | .client e => ∀ env ∈ e.oneTooMany n.clients, ¬ Exceeds env.later n.clients.appRestarts
  | .clientsCrash attempts =>
    config = [] ∧ ∀ attempt ∈ attempts.head?, ¬ Exceeds attempt.1 n.clients.appRestarts

/-! ## What can be started -/

/-- The topics can be created: each names itself, its options convert, and the library creates it.
-/
def TopicsStart (topicNew : ℕ → Term) (topics : Term) : Prop :=
  ∃ elems, topics.toList? = some elems ∧ ∀ i h, elems[i]? = some h → topicNew i = Term.ok ∧
    ∃ topicName topicOpts own rdk, topicOf h = some (topicName, topicOpts) ∧
      convertTopicConfig topicOpts = .ok own rdk

/-- The element can be started. -/
def Startable (globals : Term) (e : Entry) (env : EntryEnv) : Prop :=
  ∃ opts config, propsOf e.clientOpts = some opts ∧
    appendProps opts (getEnv globals (props [])) = some config ∧
      ((e.type = .atom "producer" ∧ ProducerStarts (props config) env.toEnv ∧
          TopicsStart env.topicNew e.topics) ∨
        (e.type = .atom "consumer" ∧
          ConsumerGroupStarts e.topics (props config) e.defaultTopicsConfig env.toEnv))

/-- The application can be started. -/
structure Bootable (globals : Term) (config : List Entry) (envs : ℕ → EntryEnv) : Prop where
  distinct : (config.map Entry.clientId).Nodup
  startable : ∀ i e, config[i]? = some e → Startable globals e (envs i)

/-- The call of `producer_topic_new` for an element of the topics, when it is created. -/
def topicCall (cache : CacheClient.Table) (clientId : String) (h : Term) : Option TopicNew :=
  (topicOf h).bind fun p => (createTopic cache clientId p.1 p.2 Term.ok).1

/-- The calls of `producer_topic_new` for an element of `:clients`. -/
def Entry.topicCalls (cache : CacheClient.Table) (e : Entry) : List (Option TopicNew) :=
  if e.type = .atom "producer" then (e.topics.toList?.getD []).map (topicCall cache e.clientId)
  else []

/-! ## One client -/

theorem topicsStart_nil (topicNew : ℕ → Term) : TopicsStart topicNew .nil :=
  ⟨[], rfl, fun i h hi => by simp at hi⟩

theorem topicsStart_cons {topicNew : ℕ → Term} {h t : Term} :
    TopicsStart topicNew (.cons h t) ↔ topicNew 0 = Term.ok ∧
      (∃ topicName topicOpts own rdk, topicOf h = some (topicName, topicOpts) ∧
        convertTopicConfig topicOpts = .ok own rdk) ∧
      TopicsStart (fun i => topicNew (i + 1)) t := by
  constructor
  · rintro ⟨elems, helems, hall⟩
    obtain ⟨rest, hrest, rfl⟩ := Option.map_eq_some_iff.1 helems
    obtain ⟨hnew, htopic⟩ := hall 0 h rfl
    exact ⟨hnew, htopic, rest, hrest, fun i g hi => hall (i + 1) g hi⟩
  · rintro ⟨hnew, htopic, rest, hrest, hall⟩
    refine ⟨h :: rest, by simp only [Term.toList?, hrest, Option.map_some], fun i g hi => ?_⟩
    cases i with
    | zero => exact Option.some.inj hi ▸ ⟨hnew, htopic⟩
    | succ i => exact hall i g hi

theorem createTopic_ok_iff {cache : CacheClient.Table} {clientId : String}
    (hentry : (CacheClient.get cache clientId).isSome) {topicName topicConfig result : Term} :
    (createTopic cache clientId topicName topicConfig result).2 = .returned Term.ok ↔
      result = Term.ok ∧ ∃ own rdk, convertTopicConfig topicConfig = .ok own rdk := by
  obtain ⟨e, he⟩ := Option.isSome_iff_exists.1 hentry
  cases hconfig : convertTopicConfig topicConfig with
  | ok own rdk => simp [createTopic, he, hconfig]
  | caught reason => simp [createTopic, he, hconfig]

theorem createTopic_call {cache : CacheClient.Table} {clientId : String}
    {topicName topicConfig result : Term} {call : Option TopicNew}
    (h : createTopic cache clientId topicName topicConfig result = (call, .returned Term.ok)) :
    (createTopic cache clientId topicName topicConfig Term.ok).1 = call ∧
      call.toList.map some = [call] := by
  unfold createTopic at h ⊢
  split at h
  · cases h
  · split at h
    · cases h
    · cases h
      exact ⟨rfl, rfl⟩

/-- The topics of a registered producer are created to the end exactly when each can be. -/
theorem createTopics_completed_iff {cache : CacheClient.Table} {clientId : String}
    (hentry : (CacheClient.get cache clientId).isSome) (topicNew : ℕ → Term) (topics : Term) :
    (createTopics cache clientId topicNew topics).2 = true ↔ TopicsStart topicNew topics := by
  fun_induction createTopics cache clientId topicNew topics with
  | case1 topicNew => exact iff_of_true rfl (topicsStart_nil _)
  | case2 topicNew h t htopic =>
    rw [topicsStart_cons, htopic]
    simp
  | case3 topicNew h t topicName topicOpts htopic call hcall calls completed hrest ih =>
    rw [hrest] at ih
    have hreply := congrArg Prod.snd hcall
    obtain ⟨hnew, hconfig⟩ := (createTopic_ok_iff hentry).1 hreply
    rw [topicsStart_cons, ih, and_iff_right hnew, and_iff_right]
    obtain ⟨own, rdk, hconfig⟩ := hconfig
    exact ⟨topicName, topicOpts, own, rdk, htopic, hconfig⟩
  | case4 topicNew h t topicName topicOpts htopic call reply hreply hcall =>
    rw [topicsStart_cons]
    refine iff_of_false (by simp) ?_
    rintro ⟨hnew, ⟨topicName', topicOpts', own, rdk, htopic', hconfig⟩, _⟩
    rw [htopic] at htopic'
    cases htopic'
    have hok : (createTopic cache clientId topicName topicOpts (topicNew 0)).2 =
        .returned Term.ok := (createTopic_ok_iff hentry).2 ⟨hnew, own, rdk, hconfig⟩
    rw [hcall] at hok
    exact hreply hok
  | case5 t topicNew hnil hcons =>
    refine iff_of_false (by simp) ?_
    rintro ⟨elems, helems, _⟩
    cases t with
    | nil => exact hnil rfl
    | cons h t => exact hcons h t rfl
    | _ => cases helems

/-- The calls for topics that are created to the end. -/
theorem createTopics_calls {cache : CacheClient.Table} {clientId : String} {topicNew : ℕ → Term}
    {topics : Term} (h : (createTopics cache clientId topicNew topics).2 = true) :
    ∃ elems, topics.toList? = some elems ∧
      (createTopics cache clientId topicNew topics).1.map some =
        elems.map (topicCall cache clientId) := by
  fun_induction createTopics cache clientId topicNew topics with
  | case1 => exact ⟨[], rfl, rfl⟩
  | case3 topicNew g t topicName topicOpts htopic call hcall calls completed hrest ih =>
    rw [hrest] at ih
    obtain ⟨elems, helems, hcalls⟩ := ih h
    obtain ⟨hfirst, hsome⟩ := createTopic_call hcall
    refine ⟨g :: elems, by rw [Term.toList?, helems]; rfl, ?_⟩
    have hg : topicCall cache clientId g = call := by rw [topicCall, htopic]; exact hfirst
    rw [List.map_append, hsome, hcalls, List.map_cons, hg]
    rfl
  | _ => cases h

/-- An element has been started to the end. -/
structure ClientStarted (n n' : Node) (e : Entry) : Prop where
  clients : ∃ spec : ChildSpec, n'.clients =
    (n.clients.register e.clientId spec.ref).setChild e.clientId
      (some ⟨spec, some n.clients.nextPid⟩)
  topics : n'.topics.map some = n.topics.map some ++ e.topicCalls n'.clients.cache

/-- What the start of an element comes to. -/
inductive StartClientCase (globals : Term) (n : Node) (e : Entry) (env : EntryEnv) :
    Node × Bool → Prop
  /-- it raises before the start call -/
  | raised (hno : ¬ Startable globals e env) : StartClientCase globals n e env (n, false)
  | called {starts : Prop} {result : Clients × Reply} {calls : List TopicNew} {n' : Node}
      {completed : Bool} (hstart : StartCase n.clients e.clientId starts result)
      (hregistry : n'.registry = n.registry.called e.clientId result)
      (htopics : n'.topics = n.topics ++ calls)
      (hiff : completed = true ↔ Free n.clients e.clientId ∧ Startable globals e env)
      (hcompleted : completed = true → result.2 = .ok ∧
        calls.map some = e.topicCalls result.1.cache) :
      StartClientCase globals n e env (n', completed)

section

variable {globals : Term} {n : Node} {e : Entry} {env : EntryEnv}

theorem startable_iff {opts config : List (Term × Term)} (hopts : propsOf e.clientOpts = some opts)
    (happend : appendProps opts (getEnv globals (props [])) = some config) :
    Startable globals e env ↔
      (e.type = .atom "producer" ∧ ProducerStarts (props config) env.toEnv ∧
          TopicsStart env.topicNew e.topics) ∨
        (e.type = .atom "consumer" ∧
          ConsumerGroupStarts e.topics (props config) e.defaultTopicsConfig env.toEnv) := by
  refine ⟨?_, fun h => ⟨opts, config, hopts, happend, h⟩⟩
  rintro ⟨opts', config', hopts', happend', h⟩
  obtain rfl := Option.some.inj (hopts.symm.trans hopts')
  obtain rfl := Option.some.inj (happend.symm.trans happend')
  exact h

theorem startable_producer {opts config : List (Term × Term)}
    (hopts : propsOf e.clientOpts = some opts)
    (happend : appendProps opts (getEnv globals (props [])) = some config)
    (htype : e.type = .atom "producer") : Startable globals e env ↔
      ProducerStarts (props config) env.toEnv ∧ TopicsStart env.topicNew e.topics := by
  rw [startable_iff hopts happend, htype]
  simp

theorem startable_consumer {opts config : List (Term × Term)}
    (hopts : propsOf e.clientOpts = some opts)
    (happend : appendProps opts (getEnv globals (props [])) = some config)
    (htype : e.type = .atom "consumer") : Startable globals e env ↔
      ConsumerGroupStarts e.topics (props config) e.defaultTopicsConfig env.toEnv := by
  rw [startable_iff hopts happend, htype]
  simp

theorem startClientCase (globals : Term) (n : Node) (e : Entry) (env : EntryEnv) :
    StartClientCase globals n e env (startClient globals n e env) := by
  cases hopts : propsOf e.clientOpts with
  | none =>
    have hno : ¬ Startable globals e env := by
      rintro ⟨opts, _, hopts', _⟩
      rw [hopts] at hopts'
      cases hopts'
    simp only [startClient, hopts, Option.bind_none]
    split_ifs <;> exact .raised hno
  | some opts =>
    cases happend : appendProps opts (getEnv globals (props [])) with
    | none =>
      have hno : ¬ Startable globals e env := by
        rintro ⟨opts', config, hopts', happend', _⟩
        obtain rfl := Option.some.inj (hopts.symm.trans hopts')
        rw [happend] at happend'
        cases happend'
      simp only [startClient, hopts, Option.bind_some, Api.createProducer, Api.createConsumerGroup,
        happend, Option.map_none]
      split_ifs <;> exact .raised hno
    | some config =>
      simp only [startClient, hopts, Option.bind_some, Api.createProducer, Api.createConsumerGroup,
        happend, Option.map_some]
      split_ifs with hproducer hok hconsumer
      · have hstart := startCase_createProducer n.clients e.clientId (props config) env.toEnv
        have hentry := hstart.isSome_of_ok hok
        refine .called hstart rfl rfl ?_ fun hcompleted => ⟨hok, ?_⟩
        · have hfree := hstart.ok_iff.1 hok
          rw [startable_producer hopts happend hproducer, and_iff_right hfree.1,
            and_iff_right hfree.2]
          exact createTopics_completed_iff hentry env.topicNew e.topics
        · obtain ⟨elems, helems, hcalls⟩ := createTopics_calls hcompleted
          rw [Entry.topicCalls, if_pos hproducer, helems]
          exact hcalls
      · have hstart := startCase_createProducer n.clients e.clientId (props config) env.toEnv
        refine .called hstart rfl (List.append_nil _).symm (iff_of_false Bool.false_ne_true ?_)
          fun h => absurd h Bool.false_ne_true
        rw [startable_producer hopts happend hproducer]
        exact fun hs => hok (hstart.ok_iff.2 ⟨hs.1, hs.2.1⟩)
      · have hstart := startCase_createConsumerGroup n.clients e.clientId e.topics (props config)
          e.defaultTopicsConfig env.toEnv
        refine .called hstart rfl (List.append_nil _).symm ?_ fun hok => ?_
        · rw [startable_consumer hopts happend hconsumer, decide_eq_true_iff]
          exact hstart.ok_iff
        · refine ⟨of_decide_eq_true hok, ?_⟩
          rw [Entry.topicCalls, if_neg hproducer]
          rfl
      · refine .raised fun hs => ?_
        rcases (startable_iff hopts happend).1 hs with ⟨htype, _⟩ | ⟨htype, _⟩
        · exact hproducer htype
        · exact hconsumer htype

namespace StartClientCase

variable {r : Node × Bool}

theorem completed_iff (h : StartClientCase globals n e env r) :
    r.2 = true ↔ Free n.clients e.clientId ∧ Startable globals e env := by
  cases h with
  | raised hno => exact iff_of_false Bool.false_ne_true fun hs => hno hs.2
  | called _ _ _ hiff => exact hiff

theorem clientStarted (h : StartClientCase globals n e env r) (hr : r.2 = true) :
    ClientStarted n r.1 e := by
  cases h with
  | raised => cases hr
  | @called starts result calls n' _ hstart hregistry htopics _ hcompleted =>
    obtain ⟨hok, hcalls⟩ := hcompleted hr
    have hclients : n'.clients = result.1 := congrArg State.clients hregistry
    refine ⟨?_, by rw [htopics, List.map_append, hcalls, hclients]⟩
    rw [hclients]
    cases hstart with
    | started spec => exact ⟨spec, rfl⟩
    | orphaned => cases hok
    | refused _ _ hreply => exact absurd hok hreply

theorem lasting (h : StartClientCase globals n e env r) (hl : Lasting n.registry) :
    Lasting r.1.registry := by
  cases h with
  | raised => exact hl
  | called hstart hregistry =>
    rw [hregistry]
    exact hl.called hstart

theorem remembers (h : StartClientCase globals n e env r) :
    Remembers n.clients.cache r.1.clients.cache := by
  cases h with
  | raised => exact .refl _
  | called hstart hregistry =>
    rw [Node.clients, Node.clients, hregistry]
    exact hstart.goesOn.remembers

end StartClientCase

end

namespace ClientStarted

variable {n n' : Node} {e : Entry} (h : ClientStarted n n' e)

include h

theorem get_of_ne {clientId : String} (hne : clientId ≠ e.clientId) :
    CacheClient.get n'.clients.cache clientId = CacheClient.get n.clients.cache clientId := by
  obtain ⟨spec, hclients⟩ := h.clients
  rw [hclients]
  exact CacheClient.get_set_of_ne _ _ _ hne

theorem isSome_self : (CacheClient.get n'.clients.cache e.clientId).isSome := by
  obtain ⟨spec, hclients⟩ := h.clients
  rw [hclients, Clients.setChild_cache, Clients.register, CacheClient.get_set_self]
  rfl

/-- The ids that are free afterwards were free before, and are others. -/
theorem free_iff (rest : List Entry) :
    (∀ d ∈ rest, CacheClient.get n'.clients.cache d.clientId = none) ↔
      e.clientId ∉ rest.map Entry.clientId ∧
        ∀ d ∈ rest, CacheClient.get n.clients.cache d.clientId = none := by
  constructor
  · intro hnone
    have hne : ∀ d ∈ rest, d.clientId ≠ e.clientId := by
      intro d hd heq
      have hself := h.isSome_self
      rw [← heq, hnone d hd] at hself
      cases hself
    refine ⟨fun hmem => ?_, fun d hd => h.get_of_ne (hne d hd) ▸ hnone d hd⟩
    obtain ⟨d, hd, heq⟩ := List.mem_map.1 hmem
    exact hne d hd heq
  · rintro ⟨hmem, hnone⟩ d hd
    have hne : d.clientId ≠ e.clientId := fun heq => hmem (List.mem_map.2 ⟨d, hd, heq⟩)
    rw [h.get_of_ne hne]
    exact hnone d hd

theorem agrees (hagrees : ∀ clientId, AgreesAt n.clients clientId) (clientId : String) :
    AgreesAt n'.clients clientId := by
  obtain ⟨spec, hclients⟩ := h.clients
  rw [hclients]
  exact agreesAt_started spec (fun other _ => hagrees other) clientId

end ClientStarted

/-! ## A list of clients -/

section

variable {globals : Term}

/-- What every start of an element keeps, the start of a list keeps. -/
theorem startClients_invariant {P : Node → Prop}
    (hstep : ∀ n e env, P n → P (startClient globals n e env).1) {n : Node} (hn : P n)
    (envs : ℕ → EntryEnv) (config : List Entry) : P (startClients globals envs n config).1 := by
  induction config generalizing envs n with
  | nil => exact hn
  | cons e rest ih =>
    have hfirst := hstep n e (envs 0) hn
    rw [startClients]
    split
    · next n' heq =>
      rw [heq] at hfirst
      exact ih hfirst _
    · next n' heq =>
      rwa [heq] at hfirst

/-- Completed or not, the start of a list forgets nothing. -/
theorem startClients_lasting (globals : Term) {n : Node} (h : Lasting n.registry)
    (envs : ℕ → EntryEnv) (config : List Entry) :
    Lasting (startClients globals envs n config).1.registry ∧
      Remembers n.clients.cache (startClients globals envs n config).1.clients.cache := by
  refine startClients_invariant
    (P := fun m => Lasting m.registry ∧ Remembers n.clients.cache m.clients.cache)
    (fun m e env hm => ?_) ⟨h, .refl _⟩ envs config
  have hcase := startClientCase globals m e env
  exact ⟨hcase.lasting hm.1, hm.2.trans hcase.remembers⟩

theorem bootable_cons {e : Entry} {rest : List Entry} {envs : ℕ → EntryEnv} :
    Bootable globals (e :: rest) envs ↔ e.clientId ∉ rest.map Entry.clientId ∧
      Startable globals e (envs 0) ∧ Bootable globals rest fun i => envs (i + 1) := by
  constructor
  · rintro ⟨hdistinct, hstartable⟩
    rw [List.map_cons, List.nodup_cons] at hdistinct
    exact ⟨hdistinct.1, hstartable 0 e rfl, hdistinct.2, fun i d hi => hstartable (i + 1) d hi⟩
  · rintro ⟨hmem, hstart, hdistinct, hstartable⟩
    refine ⟨List.nodup_cons.2 ⟨hmem, hdistinct⟩, fun i d hi => ?_⟩
    cases i with
    | zero => exact Option.some.inj hi ▸ hstart
    | succ i => exact hstartable i d hi

/-- **When a list is started to its end.** Its ids are distinct and not in the cache, and each of
its elements can be started. -/
theorem startClients_completed_iff {n : Node} (h : Lasting n.registry) (envs : ℕ → EntryEnv)
    (config : List Entry) : (startClients globals envs n config).2 = true ↔
      Bootable globals config envs ∧
        ∀ e ∈ config, CacheClient.get n.clients.cache e.clientId = none := by
  induction config generalizing envs n with
  | nil => exact iff_of_true rfl ⟨⟨List.nodup_nil, fun i e hi => by simp at hi⟩, by simp⟩
  | cons e rest ih =>
    have hcase := startClientCase globals n e (envs 0)
    have hfree := h.rooted.free_iff e.clientId
    rw [startClients]
    split
    · next n' heq =>
      rw [heq] at hcase
      have hstarted := hcase.clientStarted rfl
      obtain ⟨hid, hstart⟩ := hcase.completed_iff.1 rfl
      rw [ih (hcase.lasting h), bootable_cons, List.forall_mem_cons, hstarted.free_iff]
      exact ⟨fun ⟨hboot, hmem, hids⟩ => ⟨⟨hmem, hstart, hboot⟩, hid.1, hids⟩,
        fun ⟨⟨hmem, _, hboot⟩, _, hids⟩ => ⟨hboot, hmem, hids⟩⟩
    · next n' heq =>
      rw [heq] at hcase
      refine iff_of_false Bool.false_ne_true ?_
      rintro ⟨hboot, hids⟩
      have hcompleted := hcase.completed_iff.2
        ⟨hfree.2 (hids e List.mem_cons_self), hboot.startable 0 e rfl⟩
      cases hcompleted

/-- The list has been started: its clients run beside the ones of before, and its topics have been
created in order, each over the reference of its own producer. -/
structure ListStarted (n n' : Node) (config : List Entry) : Prop where
  registered : ∀ e ∈ config, (CacheClient.get n'.clients.cache e.clientId).isSome
  others : ∀ clientId ∉ config.map Entry.clientId,
    CacheClient.get n'.clients.cache clientId = CacheClient.get n.clients.cache clientId
  agrees : (∀ clientId, AgreesAt n.clients clientId) → ∀ clientId, AgreesAt n'.clients clientId
  topics : n'.topics.map some =
    n.topics.map some ++ config.flatMap (Entry.topicCalls n'.clients.cache)

/-- The calls for the topics of a client depend on its own entry only. -/
theorem topicCalls_congr {cache cache' : CacheClient.Table} {e : Entry}
    (h : CacheClient.get cache e.clientId = CacheClient.get cache' e.clientId) :
    e.topicCalls cache = e.topicCalls cache' := by
  have hcall : topicCall cache e.clientId = topicCall cache' e.clientId := by
    funext g
    simp only [topicCall, createTopic, h]
  rw [Entry.topicCalls, Entry.topicCalls, hcall]

theorem listStarted {n : Node} (h : Lasting n.registry) {envs : ℕ → EntryEnv} {config : List Entry}
    (hcompleted : (startClients globals envs n config).2 = true) :
    ListStarted n (startClients globals envs n config).1 config := by
  induction config generalizing envs n with
  | nil => exact ⟨by simp, fun _ _ => rfl, id, (List.append_nil _).symm⟩
  | cons e rest ih =>
    have hcase := startClientCase globals n e (envs 0)
    obtain ⟨hboot, _⟩ := (startClients_completed_iff h envs (e :: rest)).1 hcompleted
    have hmem := (bootable_cons.1 hboot).1
    rw [startClients] at hcompleted ⊢
    split at hcompleted
    · next n' heq =>
      rw [heq] at hcase
      have hfirst := hcase.clientStarted rfl
      have hrest := ih (hcase.lasting h) hcompleted
      have hself := hrest.others e.clientId hmem
      refine ⟨?_, fun clientId hid => ?_, fun hagrees => hrest.agrees (hfirst.agrees hagrees), ?_⟩
      · rw [List.forall_mem_cons, hself]
        exact ⟨hfirst.isSome_self, hrest.registered⟩
      · obtain ⟨hne, hid⟩ := not_or.1 fun hor => hid (List.mem_cons.2 hor)
        rw [hrest.others clientId hid, hfirst.get_of_ne hne]
      · rw [hrest.topics, hfirst.topics, List.flatMap_cons, List.append_assoc,
          topicCalls_congr hself]
    · cases hcompleted

/-! ## The application -/

/-- **What a start has made.** The configured clients run, each in the cache with its process, and
no other, and exactly the configured topics were created, in order, each over the reference of its
own producer. -/
structure Booted (config : List Entry) (n : Node) : Prop where
  running : ∀ clientId, AgreesAt n.clients clientId
  configured : ∀ clientId,
    (CacheClient.get n.clients.cache clientId).isSome ↔ clientId ∈ config.map Entry.clientId
  topics : n.topics.map some = config.flatMap (Entry.topicCalls n.clients.cache)

variable {config : List Entry} {envs : ℕ → EntryEnv}

theorem applicationStart_up_iff :
    (applicationStart globals config envs).up = true ↔ Bootable globals config envs := by
  refine (startClients_completed_iff (n := ⟨.start, []⟩) lasting_start envs config).trans ?_
  exact and_iff_left fun _ _ => rfl

theorem lasting_setUp {n : Node} (h : Lasting n.registry) (up : Bool) :
    Lasting (n.setUp up).registry := ⟨h.rooted, h.kept, h.once⟩

theorem lasting_countRestart {n : Node} (h : Lasting n.registry) (now : ℕ) :
    Lasting (n.countRestart now).registry := ⟨h.rooted, h.kept, h.once⟩

theorem applicationStart_lasting : Lasting (applicationStart globals config envs).registry :=
  lasting_setUp (startClients_lasting globals (n := ⟨.start, []⟩) lasting_start envs config).1 _

theorem booted_applicationStart (hboot : Bootable globals config envs) :
    Booted config (applicationStart globals config envs) := by
  have hstarted := listStarted (n := ⟨.start, []⟩) lasting_start
    (applicationStart_up_iff.2 hboot)
  refine ⟨hstarted.agrees fun _ => rfl, fun clientId => ⟨fun hentry => ?_, fun hmem => ?_⟩,
    hstarted.topics⟩
  · by_contra hmem
    have hnone := hstarted.others clientId hmem
    have hsome := hnone ▸ hentry
    cases hsome
  · obtain ⟨e, he, rfl⟩ := List.mem_map.1 hmem
    exact hstarted.registered e he

/-- **What a start comes to.** For any list of clients, any options and any answers of the library,
the application starts exactly when the ids are distinct and each client, with its topics, can be
started; and then it runs exactly these clients, with exactly these topics. -/
theorem starts_exactly (globals : Term) (config : List Entry) (envs : ℕ → EntryEnv) :
    ((applicationStart globals config envs).up = true ↔ Bootable globals config envs) ∧
      ((applicationStart globals config envs).up = true →
        Booted config (applicationStart globals config envs)) :=
  ⟨applicationStart_up_iff, fun hup => booted_applicationStart (applicationStart_up_iff.1 hup)⟩

/-- `Exrdkafka.Clients` cannot be started again once the clients of its list are registered. -/
theorem restartClients_up (globals : Term) {n n' : Node} (h : Lasting n.registry)
    (hids : ∀ e ∈ config, (CacheClient.get n.clients.cache e.clientId).isSome)
    (hconfig : config ≠ []) {attempts : List (ℕ × (ℕ → EntryEnv))}
    (hrestart : restartClients globals config n attempts = some n') : n'.up = false := by
  induction attempts generalizing n with
  | nil => cases hrestart
  | cons attempt attempts ih =>
    obtain ⟨now, envs⟩ := attempt
    have hcounted := lasting_countRestart h now
    obtain ⟨hlasting, hremembers⟩ := startClients_lasting globals hcounted envs config
    rw [restartClients] at hrestart
    split_ifs at hrestart
    · obtain rfl := Option.some.inj hrestart
      rfl
    · split at hrestart
      · next m heq =>
        have hcompleted : (startClients globals envs (n.countRestart now) config).2 = true := by
          rw [heq]
        obtain ⟨e, he⟩ := List.exists_mem_of_ne_nil config hconfig
        have hnone := ((startClients_completed_iff hcounted envs config).1 hcompleted).2 e he
        have hsome := hids e he
        rw [show CacheClient.get n.clients.cache e.clientId = none from hnone] at hsome
        cases hsome
      · next m heq =>
        rw [heq] at hlasting hremembers
        exact ih hlasting (fun e he => hremembers _ (hids e he)) hrestart

/-- A list without elements is started again at once. -/
theorem restartClients_nil_up {n n' : Node} (hup : n.up = true)
    {attempts : List (ℕ × (ℕ → EntryEnv))}
    (hrestart : restartClients globals [] n attempts = some n') :
    n'.up = true ↔ ∀ attempt ∈ attempts.head?, ¬ Exceeds attempt.1 n.clients.appRestarts := by
  cases attempts with
  | nil => cases hrestart
  | cons attempt attempts =>
    rw [restartClients] at hrestart
    simp only [List.head?_cons, Option.mem_def, Option.some.injEq, forall_eq']
    split_ifs at hrestart with hexceeds
    · obtain rfl := Option.some.inj hrestart
      exact iff_of_false Bool.false_ne_true (not_not_intro hexceeds)
    · obtain rfl := Option.some.inj hrestart
      exact iff_of_true hup hexceeds

theorem restartClients_lasting {n n' : Node} (h : Lasting n.registry)
    {attempts : List (ℕ × (ℕ → EntryEnv))}
    (hrestart : restartClients globals config n attempts = some n') : Lasting n'.registry := by
  induction attempts generalizing n with
  | nil => cases hrestart
  | cons attempt attempts ih =>
    obtain ⟨now, envs⟩ := attempt
    have hlasting := (startClients_lasting globals (lasting_countRestart h now) envs config).1
    rw [restartClients] at hrestart
    split_ifs at hrestart
    · obtain rfl := Option.some.inj hrestart
      exact lasting_setUp h false
    · split at hrestart
      · next m heq =>
        obtain rfl := Option.some.inj hrestart
        rwa [heq] at hlasting
      · next m heq =>
        rw [heq] at hlasting
        exact ih hlasting hrestart

/-- What holds along a run: the registry has not forgotten anything, and as long as the application
runs the configured clients are registered. -/
structure Kept (config : List Entry) (n : Node) : Prop where
  lasting : Lasting n.registry
  configured : n.up = true →
    ∀ e ∈ config, (CacheClient.get n.clients.cache e.clientId).isSome

theorem kept_applicationStart : Kept config (applicationStart globals config envs) := by
  refine ⟨applicationStart_lasting, fun hup e he => ?_⟩
  have hbooted := booted_applicationStart (applicationStart_up_iff.1 hup)
  exact (hbooted.configured e.clientId).2 (List.mem_map.2 ⟨e, he, rfl⟩)

theorem Node.up_of_step {n n' : Node} {e : NodeEvent} (hstep : n.step globals config e = some n') :
    n.up = true := by
  cases e with
  | client e =>
    obtain ⟨r, hr, rfl⟩ := Option.map_eq_some_iff.1 hstep
    exact (State.step_eq_some.1 hr).1
  | clientsCrash attempts =>
    simp only [Node.step] at hstep
    split_ifs at hstep with hup
    exact hup

/-- One event: the application goes on running unless its supervisor has restarted too often, or has
to start a list again that has a client. -/
theorem Kept.step {n n' : Node} (h : Kept config n) {e : NodeEvent}
    (hstep : n.step globals config e = some n') :
    Kept config n' ∧ (n'.up = true ↔ Spares config n e) := by
  have hup := Node.up_of_step hstep
  cases e with
  | client e =>
    obtain ⟨r, hr, rfl⟩ := Option.map_eq_some_iff.1 hstep
    have hgoesOn := goesOn_step h.lasting.rooted hr
    refine ⟨⟨h.lasting.step hr, fun _ d hd => ?_⟩, up_next hup (State.step_eq_some.1 hr).2⟩
    exact hgoesOn.remembers _ (h.configured hup d hd)
  | clientsCrash attempts =>
    have hrestart : restartClients globals config n attempts = some n' := by
      rwa [Node.step, if_pos hup] at hstep
    have hlasting := restartClients_lasting h.lasting hrestart
    by_cases hconfig : config = []
    · subst hconfig
      refine ⟨⟨hlasting, fun _ e he => by cases he⟩, ?_⟩
      rw [restartClients_nil_up hup hrestart, Spares, and_iff_right rfl]
    · have hdown := restartClients_up globals h.lasting (h.configured hup) hconfig hrestart
      refine ⟨⟨hlasting, fun hup' => ?_⟩, iff_of_false ?_ fun hspares => hconfig hspares.1⟩
      · rw [hdown] at hup'
        cases hup'
      · rw [hdown]
        exact Bool.false_ne_true

/-- **When the application runs.** After any run of starts, crashes, restarts and ends of clients,
crashes of the manager, and crashes of `Exrdkafka.Clients`, the application is up exactly when its
list could be started, `Exrdkafka.Supervisor` has never restarted too often, and
`Exrdkafka.Clients`, which cannot start its list twice, has not crashed, or the list is empty. -/
theorem up_iff_of_run {es : List NodeEvent} {n : Node}
    (hrun : run (Node.step globals config) (applicationStart globals config envs) es = some n) :
    n.up = true ↔ Bootable globals config envs ∧
      Along (Node.step globals config) (Spares config) (applicationStart globals config envs)
        es := by
  rw [← applicationStart_up_iff]
  exact last_iff_along (P := fun n => n.up = true) (fun _ _ _ h hstep => (Kept.step h hstep).1)
    (fun _ _ _ => Node.up_of_step) (fun _ _ _ h hstep => (h.step hstep).2) kept_applicationStart
    hrun

/-- **No id is started twice.** In every run, whatever becomes of the clients. -/
theorem lasting_of_run {es : List NodeEvent} {n : Node}
    (hrun : run (Node.step globals config) (applicationStart globals config envs) es = some n) :
    Lasting n.registry :=
  (run_invariant (fun _ _ _ h hstep => (Kept.step h hstep).1) kept_applicationStart hrun).lasting

end

/-! ## An example -/

/-- A producer with a topic, and a consumer group. -/
def sampleConfig : List Entry :=
  [⟨"p", [(.atom "type", .atom "producer"), (.atom "topics", .cons (.binary [116]) .nil)]⟩,
    ⟨"c", [(.atom "type", .atom "consumer"), (.atom "topics", .cons (.tuple [.binary [116],
      .cons (.tuple [.atom "callback_module", .atom "Handler"]) .nil]) .nil)]⟩]

/-- Everything that the application meets succeeds. -/
def sampleEnvs : ℕ → EntryEnv := fun i =>
  { new := .ok (.ref i), localQueue := some [], topicNew := fun _ => Term.ok }

/-- The producer crashes and is restarted; then `Exrdkafka.Clients` crashes, and cannot be. -/
theorem up_iff_of_clientsCrash : ∃ n, run (Node.step (.atom "nil") sampleConfig)
      (applicationStart (.atom "nil") sampleConfig sampleEnvs)
      [.client (.crash "p" [allFine]), .clientsCrash (List.replicate 4 (0, sampleEnvs))] = some n ∧
    n.up = false ∧ (n.up = true ↔ Bootable (.atom "nil") sampleConfig sampleEnvs ∧
      Along (Node.step (.atom "nil") sampleConfig) (Spares sampleConfig)
        (applicationStart (.atom "nil") sampleConfig sampleEnvs)
        [.client (.crash "p" [allFine]), .clientsCrash (List.replicate 4 (0, sampleEnvs))]) :=
  ⟨_, rfl, rfl, @up_iff_of_run (.atom "nil") sampleConfig sampleEnvs
    [.client (.crash "p" [allFine]), .clientsCrash (List.replicate 4 (0, sampleEnvs))] _ rfl⟩

-- four crashes of `Exrdkafka.Clients` within the period end the application, also without clients
example : (run (Node.step (.atom "nil") []) (applicationStart (.atom "nil") [] sampleEnvs)
    (List.replicate 4 (.clientsCrash [(0, sampleEnvs)]))).map Node.up = some false := rfl

/-- A client that was removed is not started again. -/
theorem lasting_of_removed : ∃ n, run (Node.step (.atom "nil") sampleConfig)
      (applicationStart (.atom "nil") sampleConfig sampleEnvs)
      [.client (.remove "p"), .client (.createProducer "p" .nil allFine)] = some n ∧
    n.registry.calls.map Call.reply = [.ok, .ok, .errAlreadyExistingClient] ∧
      n.topics.map TopicNew.topicName = [.binary [116]] ∧ Lasting n.registry :=
  ⟨_, rfl, rfl, rfl, @lasting_of_run (.atom "nil") sampleConfig sampleEnvs
    [.client (.remove "p"), .client (.createProducer "p" .nil allFine)] _ rfl⟩

end Exrdkafka.Boot
