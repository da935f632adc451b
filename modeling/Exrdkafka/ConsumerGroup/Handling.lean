import Exrdkafka.ConsumerGroup.Member
import Exrdkafka.ConsumerGroup.Rebalance

/-!
# What a rebalance sends, and what the group does with it

The rebalance callback makes a term of the partitions it lists, and `handle_info` takes the term
apart again: the group gets the partitions that librdkafka listed, with the queues made for them
(`rebalance_assign`, `rebalance_revoke`). `Handles` lists what a message comes to. Whatever it is,
the group cleans up only queues of its map, and each after it has stopped the consumer
(`tidy_effects`).
-/

namespace Exrdkafka.ConsumerGroup

open Nif Machine Directory Trace

/-! ## What is sent is what is received -/

/-- The elements of an assignment, with the queues made for them. -/
def assignedFrom : ℕ → List RdTopicPartition → List Assigned
  | _, [] => []
  | next, obj :: rest =>
    ⟨cStr obj.topic, obj.partition, obj.offset, .ref next⟩ :: assignedFrom (next + 1) rest

theorem assignedFrom_queueRefs (next : ℕ) (objs : List RdTopicPartition) :
    (assignedFrom next objs).map (·.queueRef) =
      (List.range' next objs.length).map Term.ref := by
  induction objs generalizing next with
  | nil => rfl
  | cons obj rest ih => simp [assignedFrom, ih, List.range'_succ]

theorem assignedFrom_keys (next : ℕ) (objs : List RdTopicPartition) :
    (assignedFrom next objs).map (·.key) = Member.keys (some objs) := by
  induction objs generalizing next with
  | nil => rfl
  | cons obj rest ih =>
    rw [assignedFrom, List.map_cons, ih]
    rfl

theorem mapM_assignItems (next : ℕ) (objs : List RdTopicPartition) :
    (assignItems next objs).mapM Assigned.ofTerm = some (assignedFrom next objs) := by
  induction objs generalizing next with
  | nil => rfl
  | cons obj rest ih => simp [assignItems, assignedFrom, Assigned.ofTerm, ih]

theorem mapM_revokeItems (objs : List RdTopicPartition) :
    (revokeItems objs).mapM topicPartitionOfTerm = some (Member.keys (some objs)) := by
  induction objs with
  | nil => rfl
  | cons obj rest ih =>
    simp only [revokeItems, List.map_cons, List.mapM_cons] at ih ⊢
    rw [ih]
    rfl

theorem ofTerm_assign (next : ℕ) (objs : List RdTopicPartition) :
    Mail.ofTerm (.tuple [.atom "assign_partitions", .ofList (assignItems next objs)]) =
      some (.assignPartitions (assignedFrom next objs)) := by
  simp [Mail.ofTerm, Term.toList?_ofList, mapM_assignItems]

theorem ofTerm_revoke (objs : List RdTopicPartition) :
    Mail.ofTerm (.tuple [.atom "revoke_partitions", .ofList (revokeItems objs)]) =
      some (.revokePartitions (Member.keys (some objs))) := by
  simp [Mail.ofTerm, Term.toList?_ofList, mapM_revokeItems]

namespace Member

/-- A message gets into the mailbox, unless the process has exited. -/
def post (m : Member) (mail : Mail) : Member :=
  { m with mailbox := if m.gone then m.mailbox else m.mailbox ++ [mail] }

theorem called_send {m : Member} {message : Term} {mail : Mail}
    (h : Mail.ofTerm message = some mail) : m.called (.send message) = some (m.post mail) := by
  rw [called, h, post]
  split
  · rfl
  · rfl

theorem called_assign (m : Member) (partitions : RdPartitionList) :
    m.called (.assign partitions) =
      some { m with grant := if partitions = none then .unassigned else m.grant } := by
  cases partitions with
  | none => rfl
  | some objs => rfl

/-- **The callback for an assignment.** -/
theorem rebalance_assign {m : Member} (hrun : m.consumer.running = true)
    (partitions : RdPartitionList) (response : ℤ) :
    m.rebalance respErrAssignPartitions partitions response = some (post
      { m with
        grant := if partitions = none then .unassigned else .granted (keys partitions)
        consumer := ⟨true, m.consumer.queues.newQueues (partitions.getD []).length⟩ }
      (.assignPartitions (assignedFrom m.consumer.queues.next (partitions.getD [])))) := by
  have hlog (m : Member) : (if response = 0 then [] else
      [RebalanceCall.log "failed to assign the new partitions" response]).foldlM called m =
        some m := by
    split
    · rfl
    · rfl
  simp only [rebalance, EnifConsumer.rebalanceCb, EnifConsumer.assignPartitions, hrun, if_true,
    partitionListToNif_assign, List.cons_append, List.foldlM_cons, List.foldlM_append,
    called_assign, Option.bind_eq_bind, Option.bind_some, hlog, called_send (ofTerm_assign _ _),
    List.foldlM_nil]
  rfl

/-- **The callback for a revocation**, or for an error. -/
theorem rebalance_revoke {m : Member} (hrun : m.consumer.running = true) {err : ℤ}
    (herr : err ≠ respErrAssignPartitions) (partitions : RdPartitionList) (response : ℤ) :
    m.rebalance err partitions response = some (post
      { m with grant := .revoking (keys partitions) } (.revokePartitions (keys partitions))) := by
  have hsame : (⟨true, m.consumer.queues⟩ : EnifConsumer) = m.consumer := by rw [← hrun]
  have hsend := called_send (m := { m with grant := .revoking (keys partitions) })
    (ofTerm_revoke (partitions.getD []))
  simp only [rebalance, EnifConsumer.rebalanceCb, EnifConsumer.revokePartitions, hrun, if_true,
    if_neg herr, partitionListToNif_revoke, hsame]
  split
  · simp only [List.foldlM_cons, List.foldlM_nil, Option.bind_eq_bind, hsend]
    rfl
  · simp only [List.foldlM_cons, List.foldlM_nil, Option.bind_eq_bind, called, Option.bind_some]
    exact (congrArg (Option.bind · pure) hsend).trans rfl

/-- A consumer that is not running gives everything back. -/
theorem rebalance_stopped {m : Member} (hrun : m.consumer.running = false) (err : ℤ)
    (partitions : RdPartitionList) (response : ℤ) :
    m.rebalance err partitions response = some { m with grant := .unassigned } := by
  simp only [rebalance, EnifConsumer.rebalanceCb, EnifConsumer.revokePartitions,
    EnifConsumer.assignPartitions, hrun]
  split
  · rfl
  · split <;> rfl

end Member

/-! ## What the group does with a message -/

/-- What the process does once a callback has returned. -/
def World.effects (w : World) : GenServer.Handled State (List Term) Effect → List Effect
  | .reply _ _ es | .noreply _ es => es
  | .stop s es => es ++ terminate s
  | .raise es => es ++ terminate w.state

theorem handled_history (w : World) (r : GenServer.Handled State (List Term) Effect) :
    (w.handled r).history = w.history ++ w.effects r := by
  cases r with
  | reply => rfl
  | noreply => rfl
  | stop => exact List.append_assoc _ _ _
  | raise => exact List.append_assoc _ _ _

/-- **What a message comes to.** -/
inductive Handles (w : World) : Info → GenServer.Handled State (List Term) Effect → Prop
  | quiet {m : Info} {s : State} {es : List Effect} (hm : m.isRebalance = false)
      (hmap : s.activeTopicsMap = w.state.activeTopicsMap)
      (hes : ∀ e ∈ es, ∃ callback clientId stats, e = .statsCallback callback clientId stats) :
      Handles w m (.noreply s es)
  | assigned (ps : List (Assigned × Consumer.InitAnswer)) :
      Handles w (.assignPartitions ps) (.noreply
        { w.state with
          activeTopicsMap := insertAll w.state.activeTopicsMap (numbered w.next ps) }
        (starts (numbered w.next ps)))
  | startFailed (pre : List (Assigned × Consumer.InitAnswer)) (p : Assigned × Consumer.InitAnswer)
      (post : List (Assigned × Consumer.InitAnswer)) (hp : startLink w.state p.1 p.2 = false) :
      Handles w (.assignPartitions (pre ++ p :: post))
        (.raise (starts (numbered w.next pre) ++ [.startFailed p.1.key]))
  | revoked {tps : List TopicPartition} {es : List Entry}
      (hes : tps.map w.state.activeTopicsMap.lookup = es.map some) :
      Handles w (.revokePartitions tps)
        (.noreply { w.state with activeTopicsMap := ∅ } (revokes es))
  | notAssigned {tps : List TopicPartition} {es : List Entry}
      (htps : ∃ tp ∈ tps, tp ∉ w.state.activeTopicsMap)
      (hes : ∀ e ∈ es, e ∈ values w.state.activeTopicsMap) :
      Handles w (.revokePartitions tps) (.raise (stops es))
  | exit (sender : Pid) (reason : Term) : Handles w (.exit sender reason) (.stop w.state [])

/-- `stop_consumers` stops the consumers in front of the first partition that is not in the map. -/
theorem exists_stopConsumers (m : TopicsMap) (tps : List TopicPartition) :
    ∃ es, (stopConsumers (getPidQueuePairs m tps)).1 = stops es ∧ ∀ e ∈ es, e ∈ values m := by
  induction tps with
  | nil => exact ⟨[], rfl, nofun⟩
  | cons tp tps ih =>
    cases he : m.lookup tp with
    | none =>
      refine ⟨[], ?_, nofun⟩
      simp [getPidQueuePairs, he, stopConsumers, stops]
    | some e =>
      obtain ⟨es, hes, hvalues⟩ := ih
      refine ⟨e :: es, ?_, List.forall_mem_cons.2 ⟨mem_values.2 ⟨tp, he⟩, hvalues⟩⟩
      simp only [getPidQueuePairs] at hes
      simp [getPidQueuePairs, he, stopConsumers, hes, stops]

theorem handles (w : World) (m : Info) : Handles w m (handleInfo w.next w.state m) := by
  cases m with
  | stats decoded =>
    refine .quiet rfl rfl fun e he => ?_
    unfold callStatsCallback at he
    split at he
    · cases he
    · exact ⟨_, _, _, List.mem_singleton.1 he⟩
  | assignPartitions ps =>
    by_cases hall : ∀ p ∈ ps, startLink w.state p.1 p.2 = true
    · simp only [handleInfo, reducePartitions_ok hall]
      exact .assigned ps
    · obtain ⟨pre, a, answer, post, rfl, hpre, ha⟩ := exists_first_failure hall
      simp only [handleInfo, reducePartitions_fail hpre ha]
      exact .startFailed pre (a, answer) post ha
  | revokePartitions tps =>
    by_cases hall : ∀ tp ∈ tps, tp ∈ w.state.activeTopicsMap
    · obtain ⟨es, hes⟩ := exists_entries hall
      simp only [handleInfo, getPidQueuePairs, hes, stopConsumers_some]
      exact .revoked hes
    · obtain ⟨tp, htp, hno⟩ : ∃ tp ∈ tps, tp ∉ w.state.activeTopicsMap := by simpa using hall
      obtain ⟨es, hes, hvalues⟩ := exists_stopConsumers w.state.activeTopicsMap tps
      have hfail : (stopConsumers (getPidQueuePairs w.state.activeTopicsMap tps)).2 = false :=
        stopConsumers_none (List.mem_map.2 ⟨tp, htp, AList.lookup_eq_none.2 hno⟩)
      have hstop : stopConsumers (getPidQueuePairs w.state.activeTopicsMap tps) =
          (stops es, false) := Prod.ext hes hfail
      simp only [handleInfo, hstop]
      exact .notAssigned ⟨tp, htp, hno⟩ hvalues
  | exit sender reason =>
    simp only [handleInfo]
    split_ifs
    · exact .quiet rfl rfl (List.forall_mem_nil _)
    · exact .quiet rfl rfl (List.forall_mem_nil _)
    · exact .exit sender reason
  | other info => exact .quiet rfl rfl (List.forall_mem_nil _)

/-! ## What its effects are like -/

/-- The queues that a message hands over. -/
def Info.queueRefs : Info → List Term
  | .assignPartitions ps => ps.map (·.1.queueRef)
  | _ => []

/-- A queue is cleaned up after its consumer was stopped, and the two are in the map. -/
def Tidy (w : World) (es : List Effect) : Prop :=
  AtEach (fun pre e => ∀ ref, e = .queueCleanup ref →
    ∃ entry ∈ values w.state.activeTopicsMap,
      entry.queueRef = ref ∧ entry.pid ∈ stoppedIn pre) es

/-- A queue is cleaned up after its consumer was started and stopped. -/
def Orderly (h : List Effect) : Prop :=
  AtEach (fun pre e => ∀ ref, e = .queueCleanup ref →
    ∃ c ∈ startedIn pre, c.2.queueRef = ref ∧ c.2.pid ∈ stoppedIn pre) h

section Tidy

variable {w : World} {es es' : List Effect}

theorem tidy_of_forall (h : ∀ ref, .queueCleanup ref ∉ es) : Tidy w es := by
  rintro pre e post rfl ref rfl
  exact absurd (List.mem_append_right pre List.mem_cons_self) (h ref)

theorem Tidy.append (h : Tidy w es) (h' : Tidy w es') : Tidy w (es ++ es') := by
  refine AtEach.append h fun pre e post hsplit ref href => ?_
  obtain ⟨entry, hentry, hqueue, hstop⟩ := h' pre e post hsplit ref href
  refine ⟨entry, hentry, hqueue, ?_⟩
  rw [stoppedIn_append]
  exact List.mem_append_right _ hstop

theorem tidy_stops {entries : List Entry}
    (h : ∀ e ∈ entries, e ∈ values w.state.activeTopicsMap) : Tidy w (stops entries) := by
  induction entries with
  | nil => exact atEach_nil
  | cons e entries ih =>
    obtain ⟨he, hentries⟩ := List.forall_mem_cons.1 h
    have hfirst : Tidy w [.stop e.pid, .queueCleanup e.queueRef] := by
      have hstop : Tidy w [.stop e.pid] := tidy_of_forall (by simp)
      refine atEach_concat.2 ⟨hstop, ?_⟩
      rintro ref ⟨⟩
      exact ⟨e, he, rfl, by simp [stoppedIn]⟩
    exact hfirst.append (ih hentries)

theorem tidy_terminate (w : World) : Tidy w (terminate w.state) := by
  rw [terminate_eq]
  exact (tidy_stops fun _ he => he).append (tidy_of_forall (by simp))

/-- What the group does on a message is tidy. -/
theorem tidy_effects {m : Info} {r : GenServer.Handled State (List Term) Effect}
    (h : Handles w m r) : Tidy w (w.effects r) := by
  cases h with
  | quiet _ hmap hes =>
    refine tidy_of_forall fun ref href => ?_
    obtain ⟨_, _, _, he⟩ := hes _ href
    cases he
  | assigned ps => exact tidy_of_forall (by simp [World.effects, starts])
  | startFailed pre p post => exact (tidy_of_forall (by simp [starts])).append (tidy_terminate w)
  | revoked hes =>
    refine (tidy_stops fun e he => ?_).append (tidy_of_forall (by simp))
    obtain ⟨tp, -, htp⟩ := List.mem_map.1 (hes ▸ List.mem_map_of_mem (f := some) he)
    exact mem_values.2 ⟨tp, htp⟩
  | notAssigned htps hes => exact (tidy_stops hes).append (tidy_terminate w)
  | exit => exact tidy_terminate w

theorem startedIn_terminate (s : State) : startedIn (terminate s) = [] := by
  rw [terminate_eq, startedIn_append, startedIn_stops]
  rfl

/-- The consumers that it starts get the queues handed over, in their order. -/
theorem startedIn_effects {m : Info} {r : GenServer.Handled State (List Term) Effect}
    (h : Handles w m r) :
    ((startedIn (w.effects r)).map (·.2.queueRef)).Sublist m.queueRefs := by
  cases h with
  | quiet _ hmap hes =>
    rename_i s es _
    have hnone : startedIn es = [] := by
      refine List.filterMap_eq_nil_iff.2 fun e he => ?_
      obtain ⟨_, _, _, rfl⟩ := hes e he
      rfl
    rw [World.effects, hnone]
    exact List.nil_sublist _
  | assigned ps =>
    rw [World.effects, startedIn_starts, numbered_queues]
    exact List.Sublist.refl _
  | startFailed pre p post =>
    have hlast : startedIn [Effect.startFailed p.1.key] = [] := rfl
    rw [World.effects, startedIn_append, startedIn_terminate, startedIn_append, startedIn_starts,
      hlast, List.append_nil, List.append_nil, numbered_queues, Info.queueRefs, List.map_append]
    exact List.sublist_append_left _ _
  | revoked hes =>
    rw [World.effects, startedIn_revokes]
    exact List.nil_sublist _
  | notAssigned htps hes =>
    rw [World.effects, startedIn_append, startedIn_stops, startedIn_terminate]
    exact List.nil_sublist _
  | exit =>
    rw [World.effects, List.nil_append, startedIn_terminate]
    exact List.nil_sublist _

/-- A consumer in the map was there before, or has been started. -/
theorem values_handled {m : Info} {r : GenServer.Handled State (List Term) Effect}
    (h : Handles w m r) {e : Entry} (he : e ∈ values (w.handled r).state.activeTopicsMap) :
    e ∈ values w.state.activeTopicsMap ∨ ∃ tp, (tp, e) ∈ startedIn (w.effects r) := by
  cases h with
  | quiet _ hmap hes =>
    left
    rwa [World.handled, hmap] at he
  | assigned ps =>
    obtain ⟨tp, htp⟩ := mem_values.1 he
    rcases mem_of_lookup_insertAll htp with hnew | hold
    · exact .inr ⟨tp, by rwa [World.effects, startedIn_starts]⟩
    · exact .inl (mem_values.2 ⟨tp, hold⟩)
  | startFailed pre p post => exact .inl he
  | revoked hes => simp [World.handled, values] at he
  | notAssigned htps hes => exact .inl he
  | exit => exact .inl he

/-- A queue that is cleaned up is one of the map. -/
theorem Tidy.mem_values (h : Tidy w es) {ref : Term} (href : .queueCleanup ref ∈ es) :
    ref ∈ (values w.state.activeTopicsMap).map (·.queueRef) := by
  obtain ⟨pre, post, hsplit⟩ := List.append_of_mem href
  obtain ⟨entry, hentry, rfl, -⟩ := h pre _ post hsplit ref rfl
  exact List.mem_map_of_mem hentry

theorem Orderly.append {h : List Effect} (hh : Orderly h) (hes : Tidy w es)
    (hmap : ∀ tp e, w.state.activeTopicsMap.lookup tp = some e → (tp, e) ∈ startedIn h) :
    Orderly (h ++ es) := by
  refine AtEach.append hh fun pre e post hsplit ref href => ?_
  obtain ⟨entry, hentry, hqueue, hstop⟩ := hes pre e post hsplit ref href
  obtain ⟨tp, htp⟩ := ConsumerGroup.mem_values.1 hentry
  refine ⟨(tp, entry), ?_, hqueue, ?_⟩
  · rw [startedIn_append]
    exact List.mem_append_left _ (hmap tp entry htp)
  · rw [stoppedIn_append]
    exact List.mem_append_right _ hstop

end Tidy

end Exrdkafka.ConsumerGroup
