import Exrdkafka.NativeClients

/-!
# The native clients and the manager

The events of the application are those of the registry: what they do to the supervisor and the
cache is what the functions of `ClientManager` and `ClientSupervisor` do. The restarts of a client,
which the registry takes as a whole, are single attempts here, and they are not counted: the
supervisor may give up and be started again at any time.

* `Manages`: what an event can do there.
* `manages_of_run`: the supervisor and the cache go through such events only.
-/

namespace Exrdkafka.NativeClients.App

open ClientManager ClientSupervisor Config Machine Nif Nif.Owned

variable {κ τ : Type} {a : App} {clientId : String} {spec : ChildSpec}

/-- What an event does to the supervisor and the cache. -/
inductive Manages (c : Clients) : Clients → Prop
  | createProducer (clientId : String) (config : Term) (env : Env) :
      Manages c (ClientManager.createProducer c clientId config env).1
  | createConsumerGroup (clientId : String) (topics clientConfig defaultTopicsConfig : Term)
      (env : Env) :
      Manages c (internalStartConsumer c clientId topics clientConfig defaultTopicsConfig env).1
  | ended (clientId : String) (spec : ChildSpec) : Manages c (clientEnded c clientId spec)
  | restart (clientId : String) (spec : ChildSpec) (env : Env) :
      Manages c (attempt clientId spec c env)
  | delete (clientId : String) : Manages c (removeClient c clientId).1
  | restarted : Manages c (stopAll c)
  | native : Manages c c

/-- A start meets `env`: it does to the supervisor and the cache what it does there. -/
structure StartsAs (lib : Librdkafka κ τ) (a : App) (clientId : String) (spec : ChildSpec)
    (m : Meets) (env : Env) : Prop where
  clients : (a.startLink lib clientId spec m).1.clients =
    (ClientSupervisor.startLink a.clients clientId env spec).1
  pid : (a.startLink lib clientId spec m).2.map Prod.fst =
    (ClientSupervisor.startLink a.clients clientId env spec).2

theorem fst_link (a : App) (clientId : String) (spec : ChildSpec) (env : Env) (r : ℕ) :
    (a.link clientId spec env r).2.map Prod.fst =
      (ClientSupervisor.startLink a.clients clientId env spec).2 := by
  simp only [App.link, Option.map_map, Function.comp_def, Option.map_id']

/-- A producer gets its client with the arguments, whatever `producer_new` has answered. -/
theorem startsAs_producer (lib : Librdkafka κ τ) (a : App) (clientId : String) (drCallback : Term)
    (config : List (Term × Term)) (r : ℕ) (m : Meets) (new : Except Term Term) :
    StartsAs lib a clientId (.producer drCallback config (.ref r)) m
      { new, localQueue := m.localQueue } :=
  ⟨rfl, fst_link a clientId ..⟩

theorem exists_startsAs_consumerGroup (lib : Librdkafka κ τ) (a : App) (clientId : String)
    (topics : List (List UInt8 × ConsumerGroup.Settings)) (config : List (Term × Term))
    (m : Meets) : ∃ env, StartsAs lib a clientId (.consumerGroup topics config) m env := by
  cases heq : a.create (enifConsumerNew lib m.args) m.replies with
  | mk a' x =>
    have hclients : a'.clients = a.clients := (congrArg (fun p => p.1.clients) heq).symm
    cases x with
    | none =>
      refine ⟨{ new := .error .undefined, localQueue := m.localQueue }, ?_, ?_⟩ <;>
        simp only [App.startLink, heq, hclients] <;> rfl
    | some r =>
      refine ⟨{ new := .ok (.ref r), localQueue := m.localQueue }, ?_, ?_⟩
      · simp only [App.startLink, heq, App.link, hclients]
      · simp only [App.startLink, heq, fst_link, hclients]

theorem exists_startsAs {P : ℕ → Prop} (lib : Librdkafka κ τ) (a : App) (clientId : String)
    (m : Meets) (h : Brings P spec) : ∃ env, StartsAs lib a clientId spec m env := by
  cases spec with
  | producer drCallback config producerRef =>
    obtain ⟨r, rfl, -⟩ := h
    exact ⟨_, startsAs_producer lib a clientId drCallback config r m (.error .undefined)⟩
  | consumerGroup topics config =>
    exact exists_startsAs_consumerGroup lib a clientId topics config m

theorem StartsAs.attempt {lib : Librdkafka κ τ} {m : Meets} {env : Env}
    (h : StartsAs lib a clientId spec m env) :
    (match a.startLink lib clientId spec m with
      | (a', some p) => a'.runs clientId spec p
      | (a', none) => a').clients = ClientSupervisor.attempt clientId spec a.clients env := by
  obtain ⟨hclients, hpid⟩ := h
  cases heq : a.startLink lib clientId spec m with
  | mk a' x =>
    rw [heq] at hclients hpid
    simp only [ClientSupervisor.attempt]
    cases hlink : ClientSupervisor.startLink a.clients clientId env spec with
    | mk c' y =>
      rw [hlink] at hclients hpid
      obtain rfl : a'.clients = c' := hclients
      obtain rfl : x.map Prod.fst = y := hpid
      cases x <;> rfl

/-- `add_client` -/
theorem StartsAs.addClient {lib : Librdkafka κ τ} {m : Meets} {env : Env}
    (h : StartsAs lib a clientId spec m env) :
    (a.addClient lib clientId spec m).clients =
      (ClientSupervisor.addClient a.clients clientId spec env).1 := by
  cases hchild : a.clients.children clientId with
  | some child =>
    obtain ⟨spec', pid⟩ := child
    cases pid <;> simp only [App.addClient, ClientSupervisor.addClient, hchild]
  | none =>
    simp only [App.addClient, ClientSupervisor.addClient, hchild]
    refine h.attempt.trans ?_
    simp only [ClientSupervisor.attempt]
    cases ClientSupervisor.startLink a.clients clientId env spec with
    | mk c' y => cases y <;> rfl

theorem manages_createProducer (lib : Librdkafka κ τ) (a : App) (clientId : String) (config : Term)
    (m : Meets) : Manages a.clients (a.createProducer lib clientId config m).clients := by
  unfold App.createProducer
  split
  · exact .native
  · next own rdk hconvert =>
    split
    · exact .native
    · next hentry =>
      split
      · next a' heq =>
        obtain rfl : (a.create _ m.replies).1 = a' := congrArg Prod.fst heq
        exact .native
      · next a' r heq =>
        have hclients : a'.clients = a.clients := (congrArg (fun p => p.1.clients) heq).symm
        have hadd := (startsAs_producer lib a' clientId (deliveryReportCallback own) (pairs own) r m
          (.ok (.ref r))).addClient
        have hcreate : (ClientManager.createProducer a.clients clientId config
            { new := .ok (.ref r), localQueue := m.localQueue }).1 =
              (ClientSupervisor.addClient a.clients clientId
                (.producer (deliveryReportCallback own) (pairs own) (.ref r))
                { new := .ok (.ref r), localQueue := m.localQueue }).1 := by
          simp only [ClientManager.createProducer, hconvert, internalStartProducer, hentry,
            startNewProducer]
          rfl
        rw [hadd, hclients, ← hcreate]
        exact .createProducer ..

theorem manages_createConsumerGroup (lib : Librdkafka κ τ) (a : App) (clientId : String)
    (topics clientConfig defaultTopicsConfig : Term) (m : Meets) :
    Manages a.clients (a.createConsumerGroup lib clientId topics clientConfig defaultTopicsConfig
      m).clients := by
  unfold App.createConsumerGroup
  split
  · next ek _ _ _ hentry hvalid hclient htopic =>
    obtain ⟨env, henv⟩ :=
      exists_startsAs_consumerGroup lib a clientId (topicsOf topics) (pairs ek) m
    have hcreate : (internalStartConsumer a.clients clientId topics clientConfig
        defaultTopicsConfig env).1 = (ClientSupervisor.addClient a.clients clientId
          (.consumerGroup (topicsOf topics) (pairs ek)) env).1 := by
      simp only [internalStartConsumer, hentry, hvalid, hclient, htopic]
    rw [henv.addClient, ← hcreate]
    exact .createConsumerGroup ..
  · exact .native

/-- **One event is one of the registry's.** -/
theorem Inv.manages (h : Inv a) (lib : Librdkafka κ τ) {e : AppEvent} {a' : App}
    (hstep : a.step lib e = some a') : Manages a.clients a'.clients := by
  cases e with
  | createProducer clientId config m =>
    obtain rfl := Option.some.inj hstep
    exact manages_createProducer lib a clientId config m
  | createConsumerGroup clientId topics clientConfig defaultTopicsConfig m =>
    obtain rfl := Option.some.inj hstep
    exact manages_createConsumerGroup lib a clientId topics clientConfig defaultTopicsConfig m
  | exits clientId reason =>
    simp only [App.step] at hstep
    split at hstep
    · obtain rfl := Option.some.inj hstep
      exact .ended ..
    · cases hstep
  | restart clientId m =>
    simp only [App.step] at hstep
    split at hstep
    · next spec hchild =>
      split at hstep
      · next hcrashed =>
        obtain ⟨spec', hchild', hbrings⟩ := h.crashed clientId hcrashed
        rw [hchild] at hchild'
        cases hchild'
        obtain ⟨env, henv⟩ := exists_startsAs lib a clientId m hbrings
        have hattempt := henv.attempt
        have hmanages : Manages a.clients (attempt clientId spec a.clients env) := .restart ..
        rw [← hattempt] at hmanages
        split at hstep
        · next a' p heq =>
          rw [heq] at hmanages
          obtain rfl := Option.some.inj hstep
          exact hmanages
        · next a' heq =>
          rw [heq] at hmanages
          obtain rfl := Option.some.inj hstep
          exact hmanages
      · cases hstep
    · cases hstep
  | delete clientId =>
    simp only [App.step] at hstep
    split at hstep
    · obtain rfl := Option.some.inj hstep
      exact .delete clientId
    · cases hstep
  | restarted =>
    obtain rfl := Option.some.inj hstep
    exact .restarted
  | native r e =>
    simp only [App.step] at hstep
    split at hstep
    · obtain ⟨l, -, rfl⟩ := Option.map_eq_some_iff.1 hstep
      exact .native
    · cases hstep

/-- The supervisor and the cache, in every run. -/
theorem manages_of_run (lib : Librdkafka κ τ) {es : List AppEvent} {a : App}
    (hrun : run (App.step lib) .start es = some a) :
    Relation.ReflTransGen Manages .empty a.clients := by
  have hkept : ∀ s e t, (Inv s ∧ Relation.ReflTransGen Manages .empty s.clients) →
      App.step lib s e = some t → Inv t ∧ Relation.ReflTransGen Manages .empty t.clients :=
    fun s e t hs hstep => ⟨hs.1.step lib hstep, hs.2.tail (hs.1.manages lib hstep)⟩
  exact (run_invariant hkept ⟨inv_start, .refl⟩ hrun).2

end Exrdkafka.NativeClients.App
