import Exrdkafka.ConsumerGroup.Polling

/-!
# A member in step with its group

The eager protocol of librdkafka assigns distinct partitions to a member that has none, and revokes
exactly those that it has assigned (`Member.Eager`). The member answers later: an assignment and the
revocation that follows it may both be on their way while the group is still at work.

* `Phase` is where the two are: what is granted, what is in the mailbox, what is in the map, and
  what the group is about to do.
* `InStep` is what the protocol is for. The consumers that run belong to granted partitions, one
  each, and the partitions are given back when no consumer runs and no queue is off the main queue.
  The exception is a consumer whose stop has timed out: it was killed, and may run on for a while.
* `inStep_of_run`: it holds in every interleaving, until the group terminates; and when the client
  is closed, every consumer has been stopped and its queue given back.
-/

namespace Exrdkafka.ConsumerGroup

open Nif Machine Directory

namespace Member

variable {m m' : Member}

/-! ## The protocol -/

/-- The eager protocol, as long as the consumer is running. -/
def Eager (m : Member) : MemberEvent → Prop
  | .rebalance err partitions _ => m.consumer.running = true →
    if err = respErrAssignPartitions then
      m.grant = .unassigned ∧ partitions ≠ none ∧ (keys partitions).Nodup
    else ∃ tps, m.grant = .granted tps ∧ ∀ tp, tp ∈ keys partitions ↔ tp ∈ tps
  | _ => True

/-- The consumers of an assignment start. -/
def Starts (m : Member) : MemberEvent → Prop
  | .handle answers => ∀ mail ∈ m.mailbox.head?, ∀ info ∈ mail.answered answers,
    startsSucceed m.group.state info = true
  | _ => True

/-- **What the protocol is for.** -/
structure InStep (m : Member) : Prop where
  /-- A consumer runs for a granted partition, -/
  within : ∀ c ∈ m.active, c.1 ∈ m.grant.tps
  /-- and no other runs for it. -/
  one : ∀ c ∈ m.active, ∀ d ∈ m.active, c.1 = d.1 → c = d
  /-- Another consumer that runs did not answer to its stop in time and was killed. -/
  killed : ∀ c ∈ m.live, c ∉ m.active → c.2.pid ∈ stoppedIn m.done ∧ c.2.pid ∈ m.killed
  /-- The partitions are given back when no consumer runs that was not killed, and every queue has
  been forwarded back to the main queue. -/
  completed : ∀ rest, m.pending = .partitionRevokeCompleted :: rest →
    m.active = [] ∧ m.consumer.queues.qm.queues = []
  /-- librdkafka does not wait in vain. -/
  revoking : ∀ tps, m.grant = .revoking tps →
    .revokePartitions tps ∈ m.mailbox ∨ .partitionRevokeCompleted ∈ m.pending
  /-- A group that has nothing left to do has started a consumer for every granted partition. -/
  assigned : ∀ tps, m.grant = .granted tps → (∀ mail ∈ m.mailbox, mail.isRebalance = false) →
    m.pending = [] → ∀ tp ∈ tps, ∃ c, c.1 = tp ∧ (c ∈ m.active ∨ c.2.pid ∈ m.ended)

/-- **Nothing is left behind.** When the client is closed, every consumer has been stopped, and the
handle of its queue has been destroyed. -/
def Closed (m : Member) : Prop :=
  ∀ c ∈ startedIn m.done, c.2.pid ∈ stoppedIn m.done ∧
    ∃ r, c.2.queueRef = .ref r ∧ m.consumer.queues.qm.calls.count (.destroy r) = 1

/-! ## Where the member is -/

/-- Effects that stop no consumer. -/
structure Steady (es : List Effect) : Prop where
  stopped : stoppedIn es = []
  revoked : .partitionRevokeCompleted ∉ es

/-- Consumers of these partitions, one for each at most. -/
structure Within (tps : List TopicPartition) (cs : List (TopicPartition × Entry)) : Prop where
  tps : ∀ c ∈ cs, c.1 ∈ tps
  one : ∀ c ∈ cs, ∀ d ∈ cs, c.1 = d.1 → c = d

/-- **Where the member is**: what is granted, the messages of the callback in the mailbox, the map,
what the group has done, and what it is about to do. -/
inductive Phase : Grant → List Mail → TopicsMap → List Effect → List Effect → Prop
  | unassigned {done pending : List Effect} (h : Steady pending) :
      Phase .unassigned [] ∅ done pending
  /-- The assignment is on its way. -/
  | assigning {ps : List Assigned} {done pending : List Effect} (hps : (ps.map (·.key)).Nodup)
      (h : Steady pending) :
      Phase (.granted (ps.map (·.key))) [.assignPartitions ps] ∅ done pending
  | assigned {tps : List TopicPartition} {map : TopicsMap} {done pending : List Effect}
      (hmap : ∀ tp, tp ∈ map ↔ tp ∈ tps) (h : Steady pending) :
      Phase (.granted tps) [] map done pending
  /-- The assignment and its revocation are on their way. -/
  | leaving {ps : List Assigned} {tps : List TopicPartition} {done pending : List Effect}
      (hps : (ps.map (·.key)).Nodup) (htps : ∀ tp, tp ∈ ps.map (·.key) ↔ tp ∈ tps)
      (h : Steady pending) :
      Phase (.revoking tps) [.assignPartitions ps, .revokePartitions tps] ∅ done pending
  /-- The revocation is on its way. -/
  | revoking {tps : List TopicPartition} {map : TopicsMap} {done pending : List Effect}
      (hmap : ∀ tp, tp ∈ map ↔ tp ∈ tps) (h : Steady pending) :
      Phase (.revoking tps) [.revokePartitions tps] map done pending
  /-- The group stops its consumers and then gives the partitions back. -/
  | completing {tps : List TopicPartition} {done pending : List Effect}
      (hdone : Within tps (liveIn done)) (hstarted : startedIn pending = [])
      (hrevoked : .partitionRevokeCompleted ∉ pending) :
      Phase (.revoking tps) [] ∅ done (pending ++ [.partitionRevokeCompleted])

/-- What holds while the group is running. -/
structure Follows (m : Member) : Prop where
  phase : Phase m.grant (m.mailbox.filter Mail.isRebalance) m.group.state.activeTopicsMap m.done
    m.pending
  agrees : Agrees (liveIn m.group.history) m.group.state.activeTopicsMap
  owned : ∀ r ∈ m.consumer.queues.qm.queues, .ref r ∈ m.madeRefs
  released : ∀ c ∈ startedIn m.group.history, c.2.pid ∈ stoppedIn m.group.history →
    .queueCleanup c.2.queueRef ∈ m.group.history
  running : m.consumer.running = true

/-- What holds when it has terminated. -/
structure Ends (m : Member) : Prop where
  released : ∀ c ∈ startedIn m.group.history,
    c.2.pid ∈ stoppedIn m.group.history ∧ .queueCleanup c.2.queueRef ∈ m.group.history
  last : ∃ before, m.group.history = before ++ [.consumerCleanup] ∧ .consumerCleanup ∉ before
  closed : m.consumer.running = false → .consumerCleanup ∈ m.done
  cleared : ∀ r ∈ m.consumer.queues.cleared, .queueCleanup (.ref r) ∉ m.done

/-- What every run keeps. -/
structure Kept (m : Member) : Prop where
  sound : m.Sound
  follows : m.group.running = true → m.Follows
  ends : m.group.running = false → m.Ends

theorem kept_start (s : State) : (start s).Kept where
  sound := sound_start s
  follows _ :=
    { phase := .unassigned ⟨rfl, nofun⟩
      agrees := agrees_empty_iff.2 rfl
      owned := nofun
      released := nofun
      running := rfl }
  ends := nofun

/-! ## The member moves on -/

theorem Steady.tail {e : Effect} {es : List Effect} (h : Steady (e :: es)) :
    Steady es ∧ e ≠ .partitionRevokeCompleted := by
  refine ⟨⟨?_, fun hmem => h.revoked (List.mem_cons_of_mem e hmem)⟩, ?_⟩
  · have hstopped := h.stopped
    rw [← List.singleton_append, stoppedIn_append] at hstopped
    exact (List.append_eq_nil_iff.1 hstopped).2
  · rintro rfl
    exact h.revoked List.mem_cons_self

theorem Within.mono {tps : List TopicPartition} {cs cs' : List (TopicPartition × Entry)}
    (h : Within tps cs) (hsub : cs' ⊆ cs) : Within tps cs' :=
  ⟨fun c hc => h.tps c (hsub hc), fun c hc d hd => h.one c (hsub hc) d (hsub hd)⟩

/-- The consumers filed in a directory. -/
theorem within_of_agrees {tps : List TopicPartition} {cs : List (TopicPartition × Entry)}
    {map : TopicsMap} (h : Agrees cs map) (hmap : ∀ tp, tp ∈ map → tp ∈ tps) : Within tps cs := by
  refine ⟨fun c hc => hmap c.1 (h.mem_iff.2 (List.mem_map_of_mem hc)), fun c hc d hd heq => ?_⟩
  have hc' := (h c.1 c.2).1 hc
  rw [heq, (h d.1 d.2).1 hd] at hc'
  exact Prod.ext heq (Option.some.inj hc').symm

theorem Within.nil {cs : List (TopicPartition × Entry)} (h : Within [] cs) : cs = [] :=
  List.eq_nil_iff_forall_not_mem.2 fun c hc => List.not_mem_nil (h.tps c hc)

/-- Without a start, no consumer is added. -/
theorem liveIn_append_subset {done es : List Effect} (hstarted : startedIn es = []) :
    liveIn (done ++ es) ⊆ liveIn done := by
  intro c hc
  rw [mem_liveIn, startedIn_append, hstarted, List.append_nil, stoppedIn_append, List.mem_append,
    not_or] at hc
  exact mem_liveIn.2 ⟨hc.1, hc.2.1⟩

/-- Without a stop, no consumer is taken away. -/
theorem liveIn_subset_append {done es : List Effect} (hstopped : stoppedIn es = []) :
    liveIn done ⊆ liveIn (done ++ es) := by
  intro c hc
  obtain ⟨hstarted, hno⟩ := mem_liveIn.1 hc
  rw [mem_liveIn, startedIn_append, stoppedIn_append, hstopped, List.append_nil]
  exact ⟨List.mem_append_left _ hstarted, hno⟩

section Phase

variable {grant : Grant} {mails : List Mail} {map : TopicsMap} {done pending : List Effect}

theorem Phase.assign (h : Phase .unassigned mails map done pending) {ps : List Assigned}
    (hps : (ps.map (·.key)).Nodup) :
    Phase (.granted (ps.map (·.key))) (mails ++ [.assignPartitions ps]) map done pending := by
  cases h with
  | unassigned hsteady => exact .assigning hps hsteady

theorem Phase.revoke {tps tps' : List TopicPartition}
    (h : Phase (.granted tps) mails map done pending) (htps : ∀ tp, tp ∈ tps' ↔ tp ∈ tps) :
    Phase (.revoking tps') (mails ++ [.revokePartitions tps']) map done pending := by
  cases h with
  | assigning hps hsteady => exact .leaving hps (fun tp => (htps tp).symm) hsteady
  | assigned hmap hsteady => exact .revoking (fun tp => (hmap tp).trans (htps tp).symm) hsteady

/-- The group sets about something that stops no consumer. -/
theorem Phase.quiet (h : Phase grant mails map done []) (hsteady : Steady pending) :
    Phase grant mails map done pending := by
  generalize hnil : ([] : List Effect) = before at h
  cases h with
  | unassigned _ => exact .unassigned hsteady
  | assigning hps _ => exact .assigning hps hsteady
  | assigned hmap _ => exact .assigned hmap hsteady
  | leaving hps htps _ => exact .leaving hps htps hsteady
  | revoking hmap _ => exact .revoking hmap hsteady
  | completing => simp at hnil

/-- The assignment has arrived at a group without partitions. -/
theorem Phase.assignment {ps : List Assigned}
    (h : Phase grant (.assignPartitions ps :: mails) map done []) :
    (ps.map (·.key)).Nodup ∧ map = ∅ ∧
      ∀ map' pending, (∀ tp, tp ∈ map' ↔ tp ∈ ps.map (·.key)) → Steady pending →
        Phase grant mails map' done pending := by
  cases h with
  | assigning hps _ =>
    exact ⟨hps, rfl, fun map' pending hmap hsteady => .assigned hmap hsteady⟩
  | leaving hps htps _ =>
    exact ⟨hps, rfl, fun map' pending hmap hsteady =>
      .revoking (fun tp => (hmap tp).trans (htps tp)) hsteady⟩

/-- The revocation has arrived at a group with just its partitions. -/
theorem Phase.revocation {tps : List TopicPartition}
    (h : Phase grant (.revokePartitions tps :: mails) map done []) :
    (∀ tp, tp ∈ map ↔ tp ∈ tps) ∧ grant = .revoking tps ∧ mails = [] := by
  cases h with
  | revoking hmap _ => exact ⟨hmap, rfl, rfl⟩

/-- The group performs an effect. -/
theorem Phase.effect {e : Effect} (h : Phase grant mails map done (e :: pending)) :
    (e ≠ .partitionRevokeCompleted → Phase grant mails map (done ++ [e]) pending) ∧
      (e = .partitionRevokeCompleted → Phase .unassigned mails map (done ++ [e]) pending ∧
        mails = [] ∧ map = ∅ ∧ pending = []) := by
  have hno (hsteady : Steady (e :: pending)) {p : Prop} (he : e = .partitionRevokeCompleted) : p :=
    absurd he hsteady.tail.2
  generalize hcons : e :: pending = before at h
  cases h with
  | unassigned hsteady =>
    subst hcons
    exact ⟨fun _ => .unassigned hsteady.tail.1, hno hsteady⟩
  | assigning hps hsteady =>
    subst hcons
    exact ⟨fun _ => .assigning hps hsteady.tail.1, hno hsteady⟩
  | assigned hmap hsteady =>
    subst hcons
    exact ⟨fun _ => .assigned hmap hsteady.tail.1, hno hsteady⟩
  | leaving hps htps hsteady =>
    subst hcons
    exact ⟨fun _ => .leaving hps htps hsteady.tail.1, hno hsteady⟩
  | revoking hmap hsteady =>
    subst hcons
    exact ⟨fun _ => .revoking hmap hsteady.tail.1, hno hsteady⟩
  | @completing tps _ before hdone hstarted hrevoked =>
    cases before with
    | nil =>
      obtain ⟨rfl, rfl⟩ := List.cons_eq_cons.1 hcons
      exact ⟨fun hne => absurd rfl hne, fun _ => ⟨.unassigned ⟨rfl, nofun⟩, rfl, rfl, rfl⟩⟩
    | cons e' before =>
      obtain ⟨rfl, rfl⟩ := List.cons_eq_cons.1 hcons
      rw [← List.singleton_append, startedIn_append, List.append_eq_nil_iff] at hstarted
      refine ⟨fun _ => .completing (hdone.mono (liveIn_append_subset hstarted.1)) hstarted.2
        fun hmem => hrevoked (List.mem_cons_of_mem e hmem), fun he => ?_⟩
      exact absurd (he ▸ List.mem_cons_self) hrevoked

/-- Partitions that are being revoked are about to be given back. -/
theorem Phase.waiting {tps : List TopicPartition}
    (h : Phase (.revoking tps) mails map done pending) :
    .revokePartitions tps ∈ mails ∨ .partitionRevokeCompleted ∈ pending := by
  cases h with
  | leaving => exact .inl (List.mem_cons_of_mem _ List.mem_cons_self)
  | revoking => exact .inl List.mem_cons_self
  | completing => exact .inr (List.mem_append_right _ List.mem_cons_self)

/-- The assignment has been handled. -/
theorem Phase.settled {tps : List TopicPartition}
    (h : Phase (.granted tps) [] map done pending) (tp : TopicPartition) : tp ∈ map ↔ tp ∈ tps := by
  cases h with
  | assigned hmap _ => exact hmap tp

/-- The consumers that run, wherever the member is. -/
theorem Phase.within (h : Phase grant mails map done pending)
    (hagrees : Agrees (liveIn (done ++ pending)) map) : Within grant.tps (liveIn done) := by
  have hsub (hsteady : Steady pending) {tps : List TopicPartition}
      (hmap : ∀ tp, tp ∈ map → tp ∈ tps) : Within tps (liveIn done) :=
    (within_of_agrees hagrees hmap).mono (liveIn_subset_append hsteady.stopped)
  cases h with
  | unassigned hsteady => exact hsub hsteady nofun
  | assigning hps hsteady => exact hsub hsteady nofun
  | assigned hmap hsteady => exact hsub hsteady fun tp => (hmap tp).1
  | leaving hps htps hsteady => exact hsub hsteady nofun
  | revoking hmap hsteady => exact hsub hsteady fun tp => (hmap tp).1
  | completing hdone _ _ => exact hdone

end Phase

/-! ## The callback -/

theorem Sound.not_gone (h : m.Sound) (hrun : m.group.running = true) : m.gone = false := by
  by_contra hgone
  rw [h.gone (Bool.of_not_eq_false hgone)] at hrun
  cases hrun

/-- A message has arrived at a group that is running. -/
theorem post_mailbox (hgone : m.gone = false) (mail : Mail) :
    (m.post mail).mailbox = m.mailbox ++ [mail] := by
  rw [post, hgone]
  rfl

theorem madeRefs_subset_post (m : Member) (mail : Mail) : m.madeRefs ⊆ (m.post mail).madeRefs := by
  have hmailbox : m.mailbox ⊆ (m.post mail).mailbox := by
    rw [post]
    split
    · exact List.Subset.refl _
    · exact List.subset_append_left _ _
  intro t ht
  rcases List.mem_append.1 ht with ht | ht
  · obtain ⟨old, hold, ht⟩ := List.mem_flatMap.1 ht
    exact List.mem_append_left _ (List.mem_flatMap.2 ⟨old, hmailbox hold, ht⟩)
  · exact List.mem_append_right _ ht

/-- Partitions are assigned. -/
theorem Follows.assign (h : m.Follows) (hs : m.Sound) (hrun : m.group.running = true)
    {objs : List RdTopicPartition} (hgrant : m.grant = .unassigned)
    (hkeys : (keys (some objs)).Nodup) :
    (post
      { m with
        grant := .granted (keys (some objs))
        consumer := ⟨true, m.consumer.queues.newQueues objs.length⟩ }
      (.assignPartitions (assignedFrom m.consumer.queues.next objs))).Follows := by
  have hgone := hs.not_gone hrun
  set m₁ : Member := { m with
    grant := .granted (keys (some objs))
    consumer := ⟨true, m.consumer.queues.newQueues objs.length⟩ } with hm₁
  have hmailbox := post_mailbox (m := m₁) hgone
    (.assignPartitions (assignedFrom m.consumer.queues.next objs))
  refine { h with phase := ?_, owned := fun r hr => ?_, running := rfl }
  · have hphase := h.phase
    rw [hgrant] at hphase
    rw [hmailbox, List.filter_append]
    have hnodup : ((assignedFrom m.consumer.queues.next objs).map (·.key)).Nodup := by
      rwa [assignedFrom_keys]
    have hnext := hphase.assign hnodup
    rwa [assignedFrom_keys] at hnext
  · rcases (Queues.mem_queues_newQueues _ _ _).1 hr with hr | ⟨hge, hlt⟩
    · exact madeRefs_subset_post m₁ _ (h.owned r hr)
    · refine List.mem_append_left _ ?_
      rw [hmailbox, List.flatMap_append, List.flatMap_singleton, Mail.queueRefs,
        assignedFrom_queueRefs]
      exact List.mem_append_right _ (mem_newRefs.2 ⟨r, hge, hlt, rfl⟩)

/-- Partitions are revoked. -/
theorem Follows.revoke (h : m.Follows) (hs : m.Sound) (hrun : m.group.running = true)
    {tps tps' : List TopicPartition} (hgrant : m.grant = .granted tps)
    (htps : ∀ tp, tp ∈ tps' ↔ tp ∈ tps) :
    (post { m with grant := .revoking tps' } (.revokePartitions tps')).Follows := by
  have hmailbox := post_mailbox (m := { m with grant := .revoking tps' }) (hs.not_gone hrun)
    (.revokePartitions tps')
  refine { h with
    phase := ?_
    owned := fun r hr => madeRefs_subset_post { m with grant := .revoking tps' } _ (h.owned r hr) }
  have hphase := h.phase
  rw [hgrant] at hphase
  rw [hmailbox, List.filter_append]
  exact hphase.revoke htps

/-! ## The group -/

/-- The effects that are about to be performed. -/
theorem handled_pending (m : Member) (rest : List Mail)
    (r : GenServer.Handled State (List Term) Effect) :
    ({ m with mailbox := rest }.handled r).pending = m.group.effects r := by
  show (m.group.handled r).history.drop m.group.history.length = _
  rw [handled_history, List.drop_left]

theorem Sound.done_eq (h : m.Sound) (hpending : m.pending = []) : m.group.history = m.done := by
  rw [h.history, hpending, List.append_nil]

/-- A message that is not one of the callback, and does not end the group. -/
theorem Follows.quiet (h : m.Follows) (hpending : m.pending = []) {rest : List Mail}
    (hfilter : rest.filter Mail.isRebalance = m.mailbox.filter Mail.isRebalance)
    (hrefs : rest.flatMap Mail.queueRefs = m.mailbox.flatMap Mail.queueRefs) {s : State}
    {es : List Effect} (hmap : s.activeTopicsMap = m.group.state.activeTopicsMap)
    (hes : ∀ e ∈ es, ∃ callback clientId stats, e = .statsCallback callback clientId stats) :
    ({ m with mailbox := rest }.handled (.noreply s es)).Follows := by
  have hstarted : startedIn es = [] := by
    refine List.filterMap_eq_nil_iff.2 fun e he => ?_
    obtain ⟨_, _, _, rfl⟩ := hes e he
    rfl
  have hstopped : stoppedIn es = [] := by
    refine List.filterMap_eq_nil_iff.2 fun e he => ?_
    obtain ⟨_, _, _, rfl⟩ := hes e he
    rfl
  have hsteady : Steady es := by
    refine ⟨hstopped, fun hmem => ?_⟩
    obtain ⟨_, _, _, he⟩ := hes _ hmem
    cases he
  have hphase := h.phase
  rw [hpending] at hphase
  refine { h with
    phase := ?_
    agrees := ?_
    owned := fun r hr => ?_
    released := fun c hc hstop => ?_ }
  · rw [handled_pending]
    show Phase m.grant (rest.filter Mail.isRebalance) s.activeTopicsMap m.done es
    rw [hfilter, hmap]
    exact hphase.quiet hsteady
  · show Agrees (liveIn (m.group.history ++ es)) s.activeTopicsMap
    rw [hmap]
    have hlive : liveIn (m.group.history ++ es) = liveIn m.group.history := by
      simp [liveIn, hstarted, hstopped]
    exact hlive ▸ h.agrees
  · show .ref r ∈ rest.flatMap Mail.queueRefs ++
      (startedIn (m.group.history ++ es)).map (·.2.queueRef)
    rw [hrefs, startedIn_append, hstarted, List.append_nil]
    exact h.owned r hr
  · replace hc : c ∈ startedIn (m.group.history ++ es) := hc
    replace hstop : c.2.pid ∈ stoppedIn (m.group.history ++ es) := hstop
    rw [startedIn_append, hstarted, List.append_nil] at hc
    rw [stoppedIn_append, hstopped, List.append_nil] at hstop
    exact List.mem_append_left _ (h.released c hc hstop)

/-- The group starts the consumers of an assignment. -/
theorem Follows.assignment (h : m.Follows) (hs : m.Sound) (hrun : m.group.running = true)
    (hpending : m.pending = []) {ps : List (Assigned × Consumer.InitAnswer)} {rest : List Mail}
    (hmailbox : m.mailbox = .assignPartitions (ps.map Prod.fst) :: rest) :
    ({ m with mailbox := rest }.handled (.noreply
      { m.group.state with
        activeTopicsMap := insertAll m.group.state.activeTopicsMap (numbered m.group.next ps) }
      (starts (numbered m.group.next ps)))).Follows := by
  have hcons := hs.consistent hrun
  have hmail : m.mailbox.flatMap Mail.queueRefs =
      (Info.assignPartitions ps).queueRefs ++ rest.flatMap Mail.queueRefs := by
    rw [hmailbox, List.flatMap_cons, Mail.queueRefs, List.map_map]
    rfl
  have hphase := h.phase
  rw [hpending, hmailbox, List.filter_cons_of_pos rfl] at hphase
  obtain ⟨hkeys, hempty, hnext⟩ := hphase.assignment
  have hfst : (ps.map Prod.fst).map (·.key) = (numbered m.group.next ps).map Prod.fst := by
    rw [numbered_keys, List.map_map]
    rfl
  rw [hfst] at hkeys hnext
  have hnodup := liveIn_nodup (hcons.assign (hs.newQueues hmail))
  rw [liveIn_starts hcons] at hnodup
  have hagrees := (agrees_append_insertAll_iff h.agrees hnodup).2
    ⟨hkeys, fun tp _ hmem => by rw [hempty] at hmem; exact AList.notMem_empty tp hmem⟩
  have hlive : Agrees (liveIn (m.group.history ++ starts (numbered m.group.next ps)))
      (insertAll m.group.state.activeTopicsMap (numbered m.group.next ps)) := by
    rwa [liveIn_starts hcons]
  refine { h with
    phase := ?_
    agrees := hlive
    owned := fun r hr => ?_
    released := fun c hc hstop => ?_ }
  · rw [handled_pending]
    refine hnext _ _ (fun tp => ?_) ⟨stoppedIn_starts _, by simp [World.effects, starts]⟩
    have hnone : liveIn m.group.history = [] := by
      have hold := h.agrees
      rwa [hempty, agrees_empty_iff] at hold
    have hiff := hagrees.mem_iff (k := tp)
    rwa [hnone, List.nil_append] at hiff
  · show .ref r ∈ rest.flatMap Mail.queueRefs ++
      (startedIn (m.group.history ++ starts (numbered m.group.next ps))).map (·.2.queueRef)
    have hmade := h.owned r hr
    rw [madeRefs, hmail] at hmade
    rw [startedIn_append, startedIn_starts, List.map_append, numbered_queues]
    simp only [Info.queueRefs, List.mem_append] at hmade ⊢
    tauto
  · replace hc : c ∈ startedIn (m.group.history ++ starts (numbered m.group.next ps)) := hc
    replace hstop : c.2.pid ∈ stoppedIn (m.group.history ++ starts (numbered m.group.next ps)) :=
      hstop
    rw [stoppedIn_append, stoppedIn_starts, List.append_nil] at hstop
    rw [startedIn_append, startedIn_starts, List.mem_append] at hc
    rcases hc with hc | hc
    · exact List.mem_append_left _ (h.released c hc hstop)
    · exact absurd (hcons.stopped_lt _ hstop) (Nat.not_lt.2 (mem_numbered_pid hc).1)

/-- The group sets about stopping its consumers. -/
theorem Follows.revocation (h : m.Follows) (hs : m.Sound) (hrun : m.group.running = true)
    (hpending : m.pending = []) {tps : List TopicPartition} {es : List Entry} {rest : List Mail}
    (hmailbox : m.mailbox = .revokePartitions tps :: rest)
    (hes : tps.map m.group.state.activeTopicsMap.lookup = es.map some) :
    ({ m with mailbox := rest }.handled (.noreply
      { m.group.state with activeTopicsMap := ∅ } (revokes es))).Follows := by
  have hcons := hs.consistent hrun
  have hphase := h.phase
  rw [hpending, hmailbox, List.filter_cons_of_pos rfl] at hphase
  obtain ⟨hmap, hgrant, hrest⟩ := hphase.revocation
  have hagrees : Agrees (liveIn (m.group.history ++ revokes es)) ∅ :=
    agrees_empty_iff.2 ((liveIn_revokes_eq_nil_iff hcons h.agrees hes).2 fun tp => (hmap tp).1)
  refine { h with
    phase := ?_
    agrees := hagrees
    owned := fun r hr => ?_
    released := fun c hc hstop => ?_ }
  · rw [handled_pending]
    show Phase m.grant (rest.filter Mail.isRebalance) ∅ m.done (stops es ++ _)
    rw [hgrant, hrest, ← hs.done_eq hpending]
    refine .completing ?_ (startedIn_stops es) (by simp [stops])
    rw [hs.done_eq hpending] at hagrees ⊢
    exact within_of_agrees (hs.done_eq hpending ▸ h.agrees) fun tp => (hmap tp).1
  · show .ref r ∈ rest.flatMap Mail.queueRefs ++
      (startedIn (m.group.history ++ revokes es)).map (·.2.queueRef)
    have hmade := h.owned r hr
    rw [madeRefs, hmailbox, List.flatMap_cons] at hmade
    rw [startedIn_append, startedIn_revokes, List.append_nil]
    exact hmade
  · replace hc : c ∈ startedIn (m.group.history ++ revokes es) := hc
    replace hstop : c.2.pid ∈ stoppedIn (m.group.history ++ revokes es) := hstop
    rw [startedIn_append, startedIn_revokes, List.append_nil] at hc
    rw [stoppedIn_append, stoppedIn_revokes, List.mem_append] at hstop
    rcases hstop with hstop | hstop
    · exact List.mem_append_left _ (h.released c hc hstop)
    · obtain ⟨e, he, hpid⟩ := List.mem_map.1 hstop
      obtain ⟨tp, -, htp⟩ := List.mem_map.1 (hes ▸ List.mem_map_of_mem (f := some) he)
      obtain rfl := hcons.eq_of_pid (hcons.entries tp e htp) hc hpid
      refine List.mem_append_right _ (List.mem_append_left _ ?_)
      exact List.mem_flatMap.2 ⟨e, he, by simp⟩

/-- The group terminates. -/
theorem Follows.terminates (h : m.Follows) (hs : m.Sound) (hrun : m.group.running = true)
    (rest : List Mail) : ({ m with mailbox := rest }.handled (.stop m.group.state [])).Ends := by
  have hhistory : (m.group.handled (.stop m.group.state [])).history =
      m.group.history ++ (stops (values m.group.state.activeTopicsMap) ++ [.consumerCleanup]) := by
    rw [handled_history, World.effects, List.nil_append, terminate_eq]
  refine ⟨fun c hc => ?_, ?_, fun hno => ?_, fun r hr => ?_⟩
  · replace hc : c ∈ startedIn (m.group.handled (.stop m.group.state [])).history := hc
    show c.2.pid ∈ stoppedIn (m.group.handled (.stop m.group.state [])).history ∧
      .queueCleanup c.2.queueRef ∈ (m.group.handled (.stop m.group.state [])).history
    rw [hhistory, startedIn_append, startedIn_append, startedIn_stops] at hc
    rw [hhistory, stoppedIn_append, stoppedIn_append, stoppedIn_stops]
    replace hc : c ∈ startedIn m.group.history := by simpa [startedIn] using hc
    by_cases hstop : c.2.pid ∈ stoppedIn m.group.history
    · exact ⟨List.mem_append_left _ hstop, List.mem_append_left _ (h.released c hc hstop)⟩
    · have hvalue : c.2 ∈ values m.group.state.activeTopicsMap :=
        mem_values.2 ⟨c.1, (h.agrees c.1 c.2).1 (mem_liveIn.2 ⟨hc, hstop⟩)⟩
      refine ⟨List.mem_append_right _ (List.mem_append_left _ (List.mem_map_of_mem hvalue)),
        List.mem_append_right _ (List.mem_append_left _ ?_)⟩
      exact List.mem_flatMap.2 ⟨c.2, hvalue, by simp⟩
  · refine ⟨m.group.history ++ stops (values m.group.state.activeTopicsMap), ?_, ?_⟩
    · rw [List.append_assoc]
      exact hhistory
    · simp [(hs.consistent hrun).client, stops]
  · exact absurd (hno.symm.trans h.running) Bool.false_ne_true
  · replace hr : r ∈ m.consumer.queues.cleared := hr
    rw [hs.uncleared h.running] at hr
    cases hr

/-- A message that is not one of the callback. -/
theorem Follows.other (h : m.Follows) (hs : m.Sound) (hrun : m.group.running = true)
    (hpending : m.pending = []) {mail : Mail} {rest : List Mail}
    (hmailbox : m.mailbox = mail :: rest) (hmail : mail.isRebalance = false) {info : Info}
    (hinfo : info.isRebalance = false) {r : GenServer.Handled State (List Term) Effect}
    (hr : Handles m.group info r) :
    (({ m with mailbox := rest }.handled r).group.running = true →
        ({ m with mailbox := rest }.handled r).Follows) ∧
      (({ m with mailbox := rest }.handled r).group.running = false →
        ({ m with mailbox := rest }.handled r).Ends) := by
  have hrefs : mail.queueRefs = [] := by
    cases mail with
    | assignPartitions ps => cases hmail
    | _ => rfl
  cases hr with
  | quiet _ hmap hes =>
    refine ⟨fun _ => h.quiet hpending ?_ ?_ hmap hes,
      fun hno => absurd (hno.symm.trans hrun) Bool.false_ne_true⟩
    · rw [hmailbox, List.filter_cons_of_neg (by simp [hmail])]
    · rw [hmailbox, List.flatMap_cons, hrefs, List.nil_append]
  | exit => exact ⟨fun hno => absurd hno Bool.false_ne_true, fun _ => h.terminates hs hrun rest⟩
  | _ => cases hinfo

/-- **The group takes a message.** -/
theorem Kept.handle (h : m.Kept) {answers : List Consumer.InitAnswer}
    (hstarts : m.Starts (.handle answers)) (hm : m.step (.handle answers) = some m') :
    (m'.group.running = true → m'.Follows) ∧ (m'.group.running = false → m'.Ends) := by
  simp only [Member.step] at hm
  split at hm
  · cases hm
  next mail rest hmailbox =>
  split_ifs at hm with hready
  obtain ⟨hrun, hpending⟩ := hready
  obtain ⟨info, hinfo, rfl⟩ := Option.map_eq_some_iff.1 hm
  have hfollows := h.follows hrun
  have hsucc : startsSucceed m.group.state info = true :=
    hstarts mail (by rw [hmailbox]; rfl) info hinfo
  have hhandles := handles m.group info
  cases mail with
  | assignPartitions ps₀ =>
    simp only [Mail.answered] at hinfo
    split_ifs at hinfo with hlength
    obtain rfl := Option.some.inj hinfo
    have hzip : (ps₀.zip answers).map Prod.fst = ps₀ := List.map_fst_zip (by omega)
    generalize handleInfo m.group.next m.group.state (.assignPartitions (ps₀.zip answers)) = r
      at hhandles
    generalize hps : ps₀.zip answers = ps at hzip hsucc hhandles
    rw [← hzip] at hmailbox
    cases hhandles with
    | quiet hm => cases hm
    | assigned =>
      have hnext := hfollows.assignment h.sound hrun hpending hmailbox
      exact ⟨fun _ => hnext, fun hno => absurd (hno.symm.trans hrun) Bool.false_ne_true⟩
    | startFailed pre p post hp =>
      simp only [startsSucceed, List.all_eq_true] at hsucc
      have htrue := hsucc p (List.mem_append_right _ List.mem_cons_self)
      rw [hp] at htrue
      cases htrue
  | revokePartitions tps =>
    obtain rfl := Option.some.inj hinfo
    generalize handleInfo m.group.next m.group.state (.revokePartitions tps) = r at hhandles
    cases hhandles with
    | quiet hm => cases hm
    | revoked hes =>
      have hnext := hfollows.revocation h.sound hrun hpending hmailbox hes
      exact ⟨fun _ => hnext, fun hno => absurd (hno.symm.trans hrun) Bool.false_ne_true⟩
    | notAssigned htps hes =>
      have hphase := hfollows.phase
      rw [hpending, hmailbox, List.filter_cons_of_pos rfl] at hphase
      obtain ⟨tp, htp, hno⟩ := htps
      exact absurd ((hphase.revocation.1 tp).2 htp) hno
  | _ =>
    obtain rfl := Option.some.inj hinfo
    exact hfollows.other h.sound hrun hpending hmailbox rfl rfl hhandles

/-- When the client is closed, the group has nothing left to do. -/
theorem Ends.finished (h : m.Ends) (hs : m.Sound) (hclosed : m.consumer.running = false) :
    m.pending = [] := by
  obtain ⟨before, hlast, hbefore⟩ := h.last
  obtain ⟨pre, post, hdone⟩ := List.append_of_mem (h.closed hclosed)
  have hhistory := hs.history
  rw [hlast, hdone, List.append_assoc, List.cons_append] at hhistory
  rcases List.eq_nil_or_concat (post ++ m.pending) with hnil | ⟨l, e, hl⟩
  · exact (List.append_eq_nil_iff.1 hnil).2
  · rw [hl, List.concat_eq_append, ← List.cons_append, ← List.append_assoc] at hhistory
    obtain ⟨rfl, -⟩ := List.append_inj' hhistory rfl
    exact absurd (List.mem_append_right _ List.mem_cons_self) hbefore

/-- **The group performs an effect.** -/
theorem Kept.performed (h : m.Kept) {e : Effect} {rest : List Effect}
    (hpending : m.pending = e :: rest) (killed : List Pid) :
    ((m.performed e rest killed).group.running = true → (m.performed e rest killed).Follows) ∧
      ((m.performed e rest killed).group.running = false → (m.performed e rest killed).Ends) := by
  obtain ⟨grant, running, queues, hperform, hgrant, hrunning, hqueues⟩ := perform_cases m e
  rw [Member.performed, hperform]
  have hsub : queues.qm.queues ⊆ m.consumer.queues.qm.queues ∧
      queues.cleared = m.consumer.queues.cleared := by
    rcases hqueues with ⟨r, -, rfl⟩ | ⟨-, rfl⟩
    · exact ⟨fun q hq => ((h.sound.queues.accounts.mem_queueCleanup r q).1 hq).2, rfl⟩
    · exact ⟨List.Subset.refl _, rfl⟩
  constructor
  · intro hrun
    have hfollows := h.follows hrun
    have hphase := hfollows.phase
    rw [hpending] at hphase
    have hopen : e ≠ .consumerCleanup := by
      rintro rfl
      refine (h.sound.consistent hrun).client ?_
      rw [h.sound.history, hpending]
      exact List.mem_append_right _ List.mem_cons_self
    refine { hfollows with
      phase := ?_
      owned := fun r hr => hfollows.owned r (hsub.1 hr)
      running := ?_ }
    · rcases hgrant with ⟨rfl, he⟩ | ⟨rfl, he⟩
      · exact hphase.effect.1 he
      · exact (hphase.effect.2 he).1
    · rcases hrunning with ⟨rfl, -⟩ | ⟨-, he⟩
      · exact hfollows.running
      · exact absurd he hopen
  · intro hrun
    have hends := h.ends hrun
    refine { hends with closed := fun hclosed => ?_, cleared := fun r hr => ?_ }
    · rcases hrunning with ⟨rfl, -⟩ | ⟨-, rfl⟩
      · exact List.mem_append_left _ (hends.closed hclosed)
      · exact List.mem_append_right _ List.mem_cons_self
    · -- nothing is cleared before the last effect
      have hrun' : m.consumer.running = true := by
        by_contra hno
        rw [hends.finished h.sound (Bool.of_not_eq_true hno)] at hpending
        cases hpending
      replace hr : r ∈ queues.cleared := hr
      rw [hsub.2, h.sound.uncleared hrun'] at hr
      cases hr

/-- **One step.** -/
theorem Kept.step (h : m.Kept) (e : MemberEvent) (heager : m.Eager e) (hstarts : m.Starts e)
    (hm : m.step e = some m') : m'.Kept := by
  have hsound := h.sound.step e hm
  suffices hnext : (m'.group.running = true → m'.Follows) ∧
      (m'.group.running = false → m'.Ends) from ⟨hsound, hnext.1, hnext.2⟩
  cases e with
  | rebalance err partitions response =>
    replace hm : m.rebalance err partitions response = some m' := hm
    cases hopen : m.consumer.running with
    | false =>
      rw [rebalance_stopped hopen] at hm
      obtain rfl := Option.some.inj hm
      refine ⟨fun hrun => ?_, fun hrun => { h.ends hrun with }⟩
      exact absurd (hopen.symm.trans (h.follows hrun).running) Bool.false_ne_true
    | true =>
      have hprotocol := heager hopen
      by_cases herr : err = respErrAssignPartitions
      · subst herr
        rw [if_pos rfl] at hprotocol
        obtain ⟨hgrant, hsome, hkeys⟩ := hprotocol
        obtain ⟨objs, rfl⟩ := Option.ne_none_iff_exists'.1 hsome
        rw [rebalance_assign hopen, if_neg hsome] at hm
        obtain rfl := Option.some.inj hm
        refine ⟨fun hrun => (h.follows hrun).assign h.sound hrun hgrant hkeys, fun hrun => ?_⟩
        refine { h.ends hrun with
          closed := fun hno => absurd hno.symm Bool.false_ne_true
          cleared := fun r hr => ?_ }
        exact (h.ends hrun).cleared r ((Queues.cleared_newQueues _ _) ▸ hr)
      · rw [if_neg herr] at hprotocol
        obtain ⟨tps, hgrant, htps⟩ := hprotocol
        rw [rebalance_revoke hopen herr] at hm
        obtain rfl := Option.some.inj hm
        exact ⟨fun hrun => (h.follows hrun).revoke h.sound hrun hgrant htps,
          fun hrun => { h.ends hrun with }⟩
  | arrive mail =>
    simp only [Member.step] at hm
    split_ifs at hm with hmail
    obtain rfl := Option.some.inj hm
    refine ⟨fun hrun => ?_, fun hrun => { h.ends hrun with }⟩
    have hfollows := h.follows hrun
    refine { hfollows with phase := ?_, owned := fun r hr => ?_ }
    · show Phase m.grant ((m.mailbox ++ [mail]).filter Mail.isRebalance) _ _ _
      rw [List.filter_append, List.filter_cons_of_neg (fun hmem => hmail (.inl hmem)),
        List.filter_nil, List.append_nil]
      exact hfollows.phase
    · have hmade := madeRefs_subset_post m mail (hfollows.owned r hr)
      rwa [post, h.sound.not_gone hrun] at hmade
  | handle answers => exact h.handle hstarts hm
  | shutdown =>
    simp only [Member.step] at hm
    split_ifs at hm with hready
    obtain rfl := Option.some.inj hm
    exact ⟨fun hrun => absurd hrun Bool.false_ne_true,
      fun _ => (h.follows hready.1).terminates h.sound hready.1 m.mailbox⟩
  | effect =>
    simp only [Member.step] at hm
    split at hm
    · cases hm
    · next e rest hpending => exact Option.some.inj hm ▸ h.performed hpending _
  | timeout =>
    simp only [Member.step] at hm
    split at hm
    · next pid rest hpending =>
      split_ifs at hm
      exact Option.some.inj hm ▸ h.performed hpending _
    · cases hm
  | die pid =>
    simp only [Member.step] at hm
    split_ifs at hm
    obtain rfl := Option.some.inj hm
    exact ⟨fun hrun => { h.follows hrun with }, fun hrun => { h.ends hrun with }⟩
  | clearAll =>
    simp only [Member.step] at hm
    split_ifs at hm with hopen
    obtain rfl := Option.some.inj hm
    refine ⟨fun hrun => absurd (h.follows hrun).running hopen, fun hrun => ?_⟩
    refine { h.ends hrun with cleared := fun r hr => ?_ }
    rcases List.mem_append.1 hr with hr | hr
    · exact h.sound.cleaned r hr
    · exact (h.ends hrun).cleared r hr
  | exit =>
    simp only [Member.step] at hm
    split_ifs at hm with hexit
    obtain rfl := Option.some.inj hm
    exact ⟨fun hrun => absurd (hexit.1.symm.trans hrun) Bool.false_ne_true,
      fun hrun => { h.ends hrun with }⟩
  | free r =>
    simp only [Member.step] at hm
    split_ifs at hm with hfree
    obtain rfl := Option.some.inj hm
    refine ⟨fun hrun => { h.follows hrun with owned := fun q hq => ?_ },
      fun hrun => { h.ends hrun with }⟩
    exact (h.follows hrun).owned q ((h.sound.queues.accounts.mem_queueFree r q).1 hq).2

/-! ## What follows -/

theorem active_subset (m : Member) : m.active ⊆ liveIn m.done :=
  fun _ hc => (List.mem_filter.1 hc).1

/-- Without a message of the callback, no queue is on its way. -/
theorem queueRefs_eq_nil {mailbox : List Mail} (h : mailbox.filter Mail.isRebalance = []) :
    mailbox.flatMap Mail.queueRefs = [] := by
  refine List.flatMap_eq_nil_iff.2 fun mail hmail => ?_
  have hno := List.filter_eq_nil_iff.1 h mail hmail
  cases mail with
  | assignPartitions ps => exact absurd rfl hno
  | _ => rfl

/-- The partitions are given back. -/
theorem Follows.completed (h : m.Follows) (hs : m.Sound) {rest : List Effect}
    (hpending : m.pending = .partitionRevokeCompleted :: rest) :
    m.active = [] ∧ m.consumer.queues.qm.queues = [] := by
  have hphase := h.phase
  rw [hpending] at hphase
  obtain ⟨-, hmails, hmap, rfl⟩ := hphase.effect.2 rfl
  have hnone : liveIn m.group.history = [] := by
    have hlast := h.agrees
    rwa [hmap, agrees_empty_iff] at hlast
  have hhistory := hs.history
  rw [hpending] at hhistory
  have hdone : liveIn m.done = [] := by
    rw [hhistory] at hnone
    exact List.eq_nil_of_subset_nil (hnone ▸ liveIn_subset_append rfl)
  refine ⟨List.eq_nil_of_subset_nil (hdone ▸ m.active_subset), ?_⟩
  refine List.eq_nil_iff_forall_not_mem.2 fun r hr => ?_
  -- the queue is that of a consumer, which has been stopped and its queue cleaned up
  have hmade := h.owned r hr
  rw [madeRefs, queueRefs_eq_nil hmails, List.nil_append] at hmade
  obtain ⟨c, hc, hqueue⟩ := List.mem_map.1 hmade
  have hstop : c.2.pid ∈ stoppedIn m.group.history := by
    by_contra hno
    have hlive := mem_liveIn.2 ⟨hc, hno⟩
    rw [hnone] at hlive
    cases hlive
  have hclean := h.released c hc hstop
  rw [hhistory, hqueue, List.mem_append] at hclean
  exact hs.cleaned r hr (hclean.resolve_right (by simp))

theorem Follows.inStep (h : m.Follows) (hs : m.Sound) : m.InStep := by
  have hagrees := h.agrees
  rw [hs.history] at hagrees
  have hwithin := h.phase.within hagrees
  refine ⟨fun c hc => hwithin.tps c (m.active_subset hc),
    fun c hc d hd => hwithin.one c (m.active_subset hc) d (m.active_subset hd),
    fun c hc hactive => ?_, fun rest => h.completed hs, fun tps hgrant => ?_,
    fun tps hgrant hmail hpending tp htp => ?_⟩
  · obtain ⟨hstarted, hstopped, hended⟩ := mem_live.1 hc
    have hin : c.2.pid ∈ stoppedIn m.done := by
      by_contra hno
      exact hactive (List.mem_filter.2 ⟨mem_liveIn.2 ⟨hstarted, hno⟩, by simpa using hended⟩)
    exact ⟨hin, hstopped.resolve_left (not_not_intro hin)⟩
  · have hphase := h.phase
    rw [hgrant] at hphase
    exact hphase.waiting.imp_left fun hmem => (List.mem_filter.1 hmem).1
  · have hphase := h.phase
    have hmails : m.mailbox.filter Mail.isRebalance = [] :=
      List.filter_eq_nil_iff.2 fun mail hin => by simp [hmail mail hin]
    rw [hgrant, hmails] at hphase
    obtain ⟨e, he⟩ := Option.isSome_iff_exists.1 (AList.lookup_isSome.2 ((hphase.settled tp).2 htp))
    rw [hpending, List.append_nil] at hagrees
    refine ⟨(tp, e), rfl, ?_⟩
    by_cases hended : e.pid ∈ m.ended
    · exact .inr hended
    · exact .inl (List.mem_filter.2 ⟨(hagrees tp e).2 he, by simpa using hended⟩)

theorem Ends.closed_of (h : m.Ends) (hs : m.Sound) (hclosed : m.consumer.running = false) :
    m.Closed := by
  intro c hc
  have hdone := hs.done_eq (h.finished hs hclosed)
  rw [← hdone] at hc ⊢
  obtain ⟨hstop, hclean⟩ := h.released c hc
  obtain ⟨r, hr, hqueue⟩ := hs.made _ (List.mem_append_right _ (List.mem_map_of_mem hc))
  rw [hqueue, hdone] at hclean
  refine ⟨hstop, r, hqueue, ?_⟩
  rw [hs.queues.accounts.destroy, if_pos]
  exact ⟨hr, fun hin => hs.cleaned r hin hclean, fun hin => h.cleared r hin hclean⟩

end Member

/-- **A member stays in step.** In every interleaving in which librdkafka follows the eager protocol
and the consumers start. -/
theorem inStep_of_run {s : State} {es : List MemberEvent} {m : Member}
    (hrun : run Member.step (Member.start s) es = some m)
    (heager : Along Member.step Member.Eager (Member.start s) es)
    (hstarts : Along Member.step Member.Starts (Member.start s) es) :
    (m.group.running = true → m.InStep) ∧ (m.consumer.running = false → m.Closed) := by
  have hboth : Along Member.step (fun m e => m.Eager e ∧ m.Starts e) (Member.start s) es :=
    fun pre e t hpre hrun => ⟨heager pre e t hpre hrun, hstarts pre e t hpre hrun⟩
  have hkept := (always_of_along (fun _ e _ h hm hc => Member.Kept.step h e hc.1 hc.2 hm)
    (Member.kept_start s) hboth).last hrun
  refine ⟨fun hrunning => (hkept.follows hrunning).inStep hkept.sound, fun hclosed => ?_⟩
  cases hrunning : m.group.running with
  | true => exact absurd (hclosed.symm.trans (hkept.follows hrunning).running) Bool.false_ne_true
  | false => exact (hkept.ends hrunning).closed_of hkept.sound hclosed

/-- A partition is assigned and revoked before the group starts its consumer, which then does not
answer to its stop in time. -/
def overtaken : List MemberEvent :=
  [.rebalance respErrAssignPartitions (some [⟨[101], 0, 5⟩]) 0,
    .rebalance respErrRevokePartitions (some [⟨[101], 0, 5⟩]) 0, .handle [.ok .nil], .effect,
    .handle [], .timeout, .effect]

/-- The partition is about to be given back, and only the killed consumer still runs. -/
theorem inStep_of_overtaken : ∃ m, run Member.step (Member.start sampleState) overtaken = some m ∧
    m.pending = [.partitionRevokeCompleted] ∧ m.live = [(([101], 0), ⟨0, .ref 0⟩)] ∧
      (m.group.running = true → m.InStep) ∧ (m.consumer.running = false → m.Closed) := by
  refine ⟨_, rfl, rfl, rfl, @inStep_of_run sampleState overtaken _ rfl ?_ ?_⟩
  · refine (along_cons rfl).2 ⟨fun _ => ⟨rfl, nofun, by decide⟩, (along_cons rfl).2 ⟨fun _ =>
      ⟨_, rfl, fun _ => Iff.rfl⟩, ?_⟩⟩
    exact along_of_forall_mem (by simp [Member.Eager])
  · refine (along_cons rfl).2 ⟨trivial, (along_cons rfl).2 ⟨trivial, (along_cons rfl).2 ⟨?_, ?_⟩⟩⟩
    · rintro _ ⟨⟩ _ ⟨⟩
      rfl
    · refine (along_cons rfl).2 ⟨trivial, (along_cons rfl).2 ⟨?_, ?_⟩⟩
      · rintro _ ⟨⟩ _ ⟨⟩
        rfl
      · exact along_of_forall_mem (by simp [Member.Starts])

end Exrdkafka.ConsumerGroup
