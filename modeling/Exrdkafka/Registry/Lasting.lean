import Exrdkafka.Registry

/-!
# What the registry remembers

Nothing takes an entry out of the cache: `CacheClient.take` is never called. An id that has been in
the cache once is taken for good, whatever has become of its client.

* `StartCase`: a start registers the id and starts the client, or registers it and fails, or leaves
  the cache and the children alone; the first exactly when the id is free and the client starts.
* `Lasting`: no id is started again once it was registered, and `Lasting.step` keeps it.
-/

namespace Exrdkafka.Registry

open ClientManager ClientSupervisor Config

/-! ## What stays in the cache -/

/-- The ids of the first table are in the second. -/
def Remembers (t t' : CacheClient.Table) : Prop :=
  ∀ clientId, (CacheClient.get t clientId).isSome → (CacheClient.get t' clientId).isSome

theorem Remembers.refl (t : CacheClient.Table) : Remembers t t := fun _ => id

theorem Remembers.trans {t t' t'' : CacheClient.Table} (h : Remembers t t')
    (h' : Remembers t' t'') : Remembers t t'' := fun clientId hid => h' clientId (h clientId hid)

theorem remembers_set (t : CacheClient.Table) (clientId : String) (ref : Term) (pid : ℕ) :
    Remembers t (CacheClient.set t clientId ref pid) := by
  intro other hother
  by_cases hne : other = clientId
  · rw [hne, CacheClient.get_set_self]
    rfl
  · rwa [CacheClient.get_set_of_ne _ _ _ hne]

/-- Every child was registered. -/
def Rooted (c : Clients) : Prop :=
  ∀ clientId, (c.children clientId).isSome → (CacheClient.get c.cache clientId).isSome

/-- The cache grows, and every child in it stays registered. -/
structure GoesOn (c c' : Clients) : Prop where
  remembers : Remembers c.cache c'.cache
  rooted : Rooted c → Rooted c'

namespace GoesOn

variable {c c' c'' : Clients} {clientId : String}

theorem trans (h : GoesOn c c') (h' : GoesOn c' c'') : GoesOn c c'' :=
  ⟨h.remembers.trans h'.remembers, fun hrooted => h'.rooted (h.rooted hrooted)⟩

/-- Children have been taken away at most. -/
theorem of_children (hcache : c'.cache = c.cache)
    (hchildren : ∀ other, (c'.children other).isSome → (c.children other).isSome) :
    GoesOn c c' := by
  refine ⟨by rw [hcache]; exact .refl _, fun hrooted other hother => ?_⟩
  rw [hcache]
  exact hrooted other (hchildren other hother)

theorem register (c : Clients) (clientId : String) (ref : Term) :
    GoesOn c (c.register clientId ref) := by
  have h := remembers_set c.cache clientId ref c.nextPid
  exact ⟨h, fun hrooted other hother => h other (hrooted other hother)⟩

/-- A child is set under a registered id. -/
theorem setChild {child : Option Child}
    (h : child.isSome → (CacheClient.get c.cache clientId).isSome) :
    GoesOn c (c.setChild clientId child) := by
  refine ⟨.refl _, fun hrooted other hother => ?_⟩
  by_cases hne : other = clientId
  · rw [hne, Clients.children_setChild_self] at hother
    rw [hne]
    exact h hother
  · rw [Clients.children_setChild_of_ne _ _ hne] at hother
    exact hrooted other hother

theorem started (c : Clients) (clientId : String) (ref : Term) (child : Option Child) :
    GoesOn c ((c.register clientId ref).setChild clientId child) :=
  (register c clientId ref).trans (setChild fun _ => by simp [Clients.register])

theorem giveUp (c : Clients) (later : ℕ) : GoesOn c (giveUp c later) :=
  of_children rfl fun _ hother => by cases hother

theorem tried (h : Tried clientId c c') : GoesOn c c' := by
  have hremembers : Remembers c.cache c'.cache := by
    intro other hother
    by_cases hne : other = clientId
    · exact hne ▸ h.kept (hne ▸ hother)
    · rwa [h.others other hne]
  refine ⟨hremembers, fun hrooted other hother => hremembers other (hrooted other ?_)⟩
  rwa [h.children] at hother

theorem restarted {spec : ChildSpec} {exceeded : Option Env}
    (h : Restarted clientId spec c exceeded c') : GoesOn c c' := by
  cases h with
  | started htried => exact (tried htried).trans (started _ clientId spec.ref _)
  | gaveUp htried env => exact (tried htried).trans (giveUp _ env.later)

theorem removeClient (c : Clients) (clientId : String) : GoesOn c (removeClient c clientId).1 :=
  setChild fun hchild => by cases hchild

end GoesOn

/-! ## Starts -/

/-- Nothing is known of the id. -/
def Free (c : Clients) (clientId : String) : Prop :=
  CacheClient.get c.cache clientId = none ∧ c.children clientId = none

/-- An id that is not in the cache is free. -/
theorem Rooted.free_iff {c : Clients} (h : Rooted c) (clientId : String) :
    Free c clientId ↔ CacheClient.get c.cache clientId = none := by
  refine ⟨And.left, fun hentry => ⟨hentry, ?_⟩⟩
  by_contra hchild
  have hentry' := h clientId (Option.isSome_iff_ne_none.2 hchild)
  rw [hentry] at hentry'
  cases hentry'

/-- What a start does, when its client can be started exactly if `starts`. -/
inductive StartCase (c : Clients) (clientId : String) (starts : Prop) : Clients × Reply → Prop
  | started (spec : ChildSpec) (hfree : Free c clientId) (hstarts : starts) :
      StartCase c clientId starts
        ((c.register clientId spec.ref).setChild clientId (some ⟨spec, some c.nextPid⟩), .ok)
  /-- the process has registered itself and failed -/
  | orphaned (ref : Term) (hentry : CacheClient.get c.cache clientId = none) (hno : ¬ starts) :
      StartCase c clientId starts (c.register clientId ref, .notStarted .failed)
  | refused {c' : Clients} {reply : Reply} (hcache : c'.cache = c.cache)
      (hchildren : ∀ other, (c'.children other).isSome → (c.children other).isSome)
      (hreply : reply ≠ .ok) (hno : ¬ (Free c clientId ∧ starts)) :
      StartCase c clientId starts (c', reply)

/-- Adding a client to the supervisor. -/
theorem startCase_addClient {c : Clients} {clientId : String} {spec : ChildSpec} {env : Env}
    {starts : Prop} (hentry : CacheClient.get c.cache clientId = none)
    (hstarts : spec.Starts env ↔ starts) :
    StartCase c clientId starts ((addClient c clientId spec env).1,
      .ofStartChild (addClient c clientId spec env).2) := by
  cases hchild : c.children clientId with
  | some child =>
    have hno : ¬ (Free c clientId ∧ starts) := by
      rintro ⟨⟨_, hnone⟩, _⟩
      rw [hchild] at hnone
      cases hnone
    obtain ⟨_, pid⟩ := child
    cases pid <;> simp only [addClient, hchild] <;>
      exact .refused rfl (fun _ => id) (by simp [Reply.ofStartChild]) hno
  | none =>
    by_cases h : spec.Starts env
    · simp only [addClient, hchild, startLink_of_starts h]
      exact .started spec ⟨hentry, hchild⟩ (hstarts.1 h)
    · have hno : ¬ starts := fun hs => h (hstarts.2 hs)
      rcases startLink_of_not_starts h c clientId with hlink | hlink <;>
        simp only [addClient, hchild, hlink]
      · exact .orphaned spec.ref hentry hno
      · exact .refused rfl (fun _ => id) (by simp [Reply.ofStartChild]) fun hs => hno hs.2

/-- A producer can be started: the options convert, and the client and the local queue are there. -/
def ProducerStarts (config : Term) (env : Env) : Prop :=
  (∃ own rdk, convertKafkaConfig config = .ok own rdk) ∧ env.new.isOk ∧ env.localQueue.isSome

theorem startCase_createProducer (c : Clients) (clientId : String) (config : Term) (env : Env) :
    StartCase c clientId (ProducerStarts config env) (createProducer c clientId config env) := by
  unfold createProducer
  split
  · next reason hconfig =>
    refine .refused rfl (fun _ => id) (by simp) ?_
    rintro ⟨_, ⟨own, rdk, hok⟩, _⟩
    rw [hconfig] at hok
    cases hok
  · next own rdk hconfig =>
    unfold internalStartProducer
    split
    · next hentry =>
      unfold startNewProducer
      split
      · next error hnew =>
        refine .refused rfl (fun _ => id) (by simp) ?_
        rintro ⟨_, _, hok, _⟩
        rw [hnew] at hok
        cases hok
      · next ref hnew =>
        refine startCase_addClient hentry ?_
        have hok : env.new.isOk := by rw [hnew]; rfl
        exact ⟨fun hqueue => ⟨⟨own, rdk, hconfig⟩, hok, hqueue⟩, fun hs => hs.2.2⟩
    · next e hentry =>
      refine .refused rfl (fun _ => id) (by simp) ?_
      rintro ⟨⟨hnone, _⟩, _⟩
      rw [hentry] at hnone
      cases hnone

/-- A consumer group can be started: its topics are valid, the options convert, and it gets a
consumer. -/
def ConsumerGroupStarts (topics clientConfig defaultTopicsConfig : Term) (env : Env) : Prop :=
  validConsumerTopics topics = some none ∧
    (∃ own rdk, convertKafkaConfig clientConfig = .ok own rdk) ∧
      (∃ own rdk, convertTopicConfig defaultTopicsConfig = .ok own rdk) ∧ env.new.isOk

theorem startCase_createConsumerGroup (c : Clients) (clientId : String)
    (topics clientConfig defaultTopicsConfig : Term) (env : Env) :
    StartCase c clientId (ConsumerGroupStarts topics clientConfig defaultTopicsConfig env)
      (internalStartConsumer c clientId topics clientConfig defaultTopicsConfig env) := by
  unfold internalStartConsumer
  split
  · next e hentry =>
    refine .refused rfl (fun _ => id) (by simp) ?_
    rintro ⟨⟨hnone, _⟩, _⟩
    rw [hentry] at hnone
    cases hnone
  · next hentry =>
    split
    · next htopics =>
      have hno : ¬ (Free c clientId ∧
          ConsumerGroupStarts topics clientConfig defaultTopicsConfig env) := by
        rintro ⟨_, hvalid, _⟩
        rw [htopics] at hvalid
        cases hvalid
      rw [managerCrashed]
      split_ifs
      · exact .refused rfl (fun _ hother => by cases hother) (by simp) hno
      · exact .refused rfl (fun _ => id) (by simp) hno
    · next topic htopics =>
      refine .refused rfl (fun _ => id) (by simp) ?_
      rintro ⟨_, hvalid, _⟩
      rw [htopics] at hvalid
      cases hvalid
    · next htopics =>
      split
      · next reason hconfig =>
        refine .refused rfl (fun _ => id) (by simp) ?_
        rintro ⟨_, _, ⟨own, rdk, hok⟩, _⟩
        rw [hconfig] at hok
        cases hok
      · next own rdk hconfig =>
        split
        · next reason htopic =>
          refine .refused rfl (fun _ => id) (by simp) ?_
          rintro ⟨_, _, _, ⟨own, rdk, hok⟩, _⟩
          rw [htopic] at hok
          cases hok
        · next own' rdk' htopic =>
          refine startCase_addClient hentry ?_
          exact ⟨fun hok => ⟨htopics, ⟨own, rdk, hconfig⟩, ⟨own', rdk', htopic⟩, hok⟩,
            fun hs => hs.2.2.2⟩

namespace StartCase

variable {c : Clients} {clientId : String} {starts : Prop} {result : Clients × Reply}

theorem ok_iff (h : StartCase c clientId starts result) :
    result.2 = .ok ↔ Free c clientId ∧ starts := by
  cases h with
  | started spec hfree hstarts => exact iff_of_true rfl ⟨hfree, hstarts⟩
  | orphaned ref hentry hno => exact iff_of_false (by simp) fun hs => hno hs.2
  | refused hcache hchildren hreply hno => exact iff_of_false hreply hno

theorem goesOn (h : StartCase c clientId starts result) : GoesOn c result.1 := by
  cases h with
  | started spec => exact .started c clientId spec.ref _
  | orphaned ref => exact .register c clientId ref
  | refused hcache hchildren => exact .of_children hcache hchildren

/-- A client that was started is registered. -/
theorem isSome_of_ok (h : StartCase c clientId starts result) (hok : result.2 = .ok) :
    (CacheClient.get result.1.cache clientId).isSome := by
  cases h with
  | started spec => simp [Clients.register]
  | orphaned ref => cases hok
  | refused _ _ hreply => exact absurd hok hreply

/-- A registered id is refused, and the cache is left alone. -/
theorem registered (h : StartCase c clientId starts result)
    (hentry : (CacheClient.get c.cache clientId).isSome) :
    result.2 ≠ .ok ∧ result.1.cache = c.cache := by
  cases h with
  | started spec hfree =>
    rw [hfree.1] at hentry
    cases hentry
  | orphaned ref hnone =>
    rw [hnone] at hentry
    cases hentry
  | refused hcache _ hreply => exact ⟨hreply, hcache⟩

end StartCase

/-! ## Runs -/

/-- An event is a start call, or goes on with other clients. -/
theorem step_cases {s t : State} {e : Event} (h : Rooted s.clients) (hstep : s.step e = some t) :
    (∃ clientId starts result, StartCase s.clients clientId starts result ∧
        t = s.called clientId result) ∨
      ∃ c, GoesOn s.clients c ∧ t = { s with clients := c } := by
  obtain ⟨-, hnext⟩ := State.step_eq_some.1 hstep
  cases e with
  | createProducer clientId config env =>
    exact .inl ⟨clientId, _, _, startCase_createProducer .., (Option.some.inj hnext).symm⟩
  | createConsumerGroup clientId topics clientConfig defaultTopicsConfig env =>
    exact .inl ⟨clientId, _, _, startCase_createConsumerGroup .., (Option.some.inj hnext).symm⟩
  | crash clientId attempts =>
    simp only [State.next] at hnext
    split at hnext
    · obtain ⟨c, hrestart, rfl⟩ := Option.map_eq_some_iff.1 hnext
      exact .inr ⟨c, .restarted (restarted_of_restartClient hrestart), rfl⟩
    · cases hnext
  | ended clientId =>
    simp only [State.next] at hnext
    split at hnext
    · next spec pid hchild =>
      have hentry := h clientId (by rw [hchild]; rfl)
      exact .inr ⟨_, .setChild fun _ => hentry, (Option.some.inj hnext).symm⟩
    · cases hnext
  | remove clientId => exact .inr ⟨_, .removeClient .., (Option.some.inj hnext).symm⟩

/-- The cache grows along a run. -/
theorem goesOn_step {s t : State} {e : Event} (h : Rooted s.clients) (hstep : s.step e = some t) :
    GoesOn s.clients t.clients := by
  rcases step_cases h hstep with ⟨clientId, starts, result, hstart, rfl⟩ | ⟨c, hc, rfl⟩
  · exact hstart.goesOn
  · exact hc

/-- **The registry never forgets.** -/
structure Lasting (s : State) : Prop where
  rooted : Rooted s.clients
  /-- What was in the cache after some start is still there. -/
  kept : ∀ call ∈ s.calls, Remembers call.after s.clients.cache
  /-- A start of an id that was in the cache after an earlier start is refused, and changes nothing
  in the cache. -/
  once : s.calls.Pairwise fun earlier later =>
    (CacheClient.get earlier.after later.clientId).isSome →
      later.reply ≠ .ok ∧ later.after = later.before

theorem lasting_start : Lasting .start :=
  ⟨fun _ hchild => (by cases hchild), fun _ hcall => (by cases hcall), .nil⟩

/-- A start call keeps it. -/
theorem Lasting.called {s : State} (h : Lasting s) {clientId : String} {starts : Prop}
    {result : Clients × Reply} (hstart : StartCase s.clients clientId starts result) :
    Lasting (s.called clientId result) := by
  have hgoesOn := hstart.goesOn
  refine ⟨hgoesOn.rooted h.rooted, fun call hcall => ?_, ?_⟩
  · rcases List.mem_append.1 hcall with hcall | hcall
    · exact (h.kept call hcall).trans hgoesOn.remembers
    · obtain rfl := List.mem_singleton.1 hcall
      exact .refl _
  · refine List.pairwise_append.2 ⟨h.once, List.pairwise_singleton .., ?_⟩
    intro earlier hearlier later hlater hentry
    obtain rfl := List.mem_singleton.1 hlater
    exact hstart.registered (h.kept earlier hearlier clientId hentry)

theorem Lasting.step {s t : State} (h : Lasting s) {e : Event} (hstep : s.step e = some t) :
    Lasting t := by
  rcases step_cases h.rooted hstep with ⟨clientId, starts, result, hstart, rfl⟩ | ⟨c, hc, rfl⟩
  · exact h.called hstart
  · exact ⟨hc.rooted h.rooted, fun call hcall => (h.kept call hcall).trans hc.remembers, h.once⟩

end Exrdkafka.Registry
