import Exrdkafka.ConsumerGroup.Server
import Exrdkafka.Foundations.Directory
import Exrdkafka.Foundations.Machine

/-!
# What a consumer group has done

Each message leaves `active_topics_map` alone, extends it by the consumers an assignment starts,
empties it after stopping the consumers of a revocation, or ends the group (`step_cases`).
`Consistent` is the invariant of a running group: processes and queues are used once, and the map
holds only consumers the group has started.
-/

namespace Exrdkafka.ConsumerGroup

open Machine Directory

/-! ## What a history says -/

/-- The consumers stopped in a history. -/
def stoppedIn (h : List Effect) : List Pid :=
  h.filterMap fun
    | .stop pid => some pid
    | _ => none

/-- The consumers started in a history and not stopped. -/
def liveIn (h : List Effect) : List (TopicPartition × Entry) :=
  (startedIn h).filter fun c => c.2.pid ∉ stoppedIn h

@[simp] theorem startedIn_append (h h' : List Effect) :
    startedIn (h ++ h') = startedIn h ++ startedIn h' :=
  List.filterMap_append

@[simp] theorem stoppedIn_append (h h' : List Effect) :
    stoppedIn (h ++ h') = stoppedIn h ++ stoppedIn h' :=
  List.filterMap_append

/-- The effects of starting consumers. -/
def starts (cs : List (TopicPartition × Entry)) : List Effect := cs.map fun c => .started c.1 c.2

/-- The effects of stopping consumers. -/
def stops (es : List Entry) : List Effect :=
  es.flatMap fun e => [.stop e.pid, .queueCleanup e.queueRef]

@[simp] theorem startedIn_starts (cs : List (TopicPartition × Entry)) :
    startedIn (starts cs) = cs := by
  simp [startedIn, starts]

@[simp] theorem stoppedIn_starts (cs : List (TopicPartition × Entry)) :
    stoppedIn (starts cs) = [] := by
  simp [stoppedIn, starts]

@[simp] theorem startedIn_stops (es : List Entry) : startedIn (stops es) = [] := by
  induction es with
  | nil => rfl
  | cons e es ih => simpa [startedIn, stops] using ih

@[simp] theorem stoppedIn_stops (es : List Entry) : stoppedIn (stops es) = es.map (·.pid) := by
  induction es with
  | nil => rfl
  | cons e es ih => simpa [stoppedIn, stops] using ih

/-- The effects of a revocation. -/
def revokes (es : List Entry) : List Effect := stops es ++ [.partitionRevokeCompleted]

@[simp] theorem startedIn_revokes (es : List Entry) : startedIn (revokes es) = [] := by
  rw [revokes, startedIn_append, startedIn_stops]
  rfl

@[simp] theorem stoppedIn_revokes (es : List Entry) :
    stoppedIn (revokes es) = es.map (·.pid) := by
  rw [revokes, stoppedIn_append, stoppedIn_stops]
  exact List.append_nil _

theorem mem_liveIn {h : List Effect} {c : TopicPartition × Entry} :
    c ∈ liveIn h ↔ c ∈ startedIn h ∧ c.2.pid ∉ stoppedIn h := by
  simp [liveIn]

/-! ## What the messages do -/

/-- The entries of an assignment whose starts succeed. -/
def numbered : Pid → List (Assigned × Consumer.InitAnswer) → List (TopicPartition × Entry)
  | _, [] => []
  | next, (a, _) :: rest => (a.key, ⟨next, a.queueRef⟩) :: numbered (next + 1) rest

theorem numbered_keys (next : Pid) (ps : List (Assigned × Consumer.InitAnswer)) :
    (numbered next ps).map Prod.fst = ps.map (·.1.key) := by
  induction ps generalizing next with
  | nil => rfl
  | cons p ps ih => simp [numbered, ih]

theorem numbered_queues (next : Pid) (ps : List (Assigned × Consumer.InitAnswer)) :
    (numbered next ps).map (·.2.queueRef) = ps.map (·.1.queueRef) := by
  induction ps generalizing next with
  | nil => rfl
  | cons p ps ih => simp [numbered, ih]

theorem numbered_pids (next : Pid) (ps : List (Assigned × Consumer.InitAnswer)) :
    (numbered next ps).map (·.2.pid) = List.range' next ps.length := by
  induction ps generalizing next with
  | nil => rfl
  | cons p ps ih => simp [numbered, ih, List.range'_succ]

@[simp] theorem numbered_length (next : Pid) (ps : List (Assigned × Consumer.InitAnswer)) :
    (numbered next ps).length = ps.length := by
  simpa using congrArg List.length (numbered_keys next ps)

theorem reducePartitions_ok {s : State} {ps : List (Assigned × Consumer.InitAnswer)}
    (h : ∀ p ∈ ps, startLink s p.1 p.2 = true) (next : Pid) (tmap : TopicsMap) :
    reducePartitions s next tmap ps =
      (starts (numbered next ps), some (insertAll tmap (numbered next ps))) := by
  induction ps generalizing next tmap with
  | nil => rfl
  | cons p ps ih =>
    obtain ⟨hp, hps⟩ := List.forall_mem_cons.1 h
    simp [reducePartitions, hp, ih hps, numbered, starts]

/-- An assignment in which not every start succeeds has a first one that fails. -/
theorem exists_first_failure {s : State} {ps : List (Assigned × Consumer.InitAnswer)}
    (h : ¬ ∀ p ∈ ps, startLink s p.1 p.2 = true) :
    ∃ pre a answer post, ps = pre ++ (a, answer) :: post ∧
      (∀ p ∈ pre, startLink s p.1 p.2 = true) ∧ startLink s a answer = false := by
  obtain ⟨p, hp⟩ : ∃ p, ps.find? (fun p => !startLink s p.1 p.2) = some p := by
    rw [← Option.isSome_iff_exists, List.find?_isSome]
    simpa using h
  obtain ⟨hfail, pre, post, rfl, hpre⟩ := List.find?_eq_some_iff_append.1 hp
  exact ⟨pre, p.1, p.2, post, rfl, by simpa using hpre, by simpa using hfail⟩

theorem reducePartitions_fail {s : State} {pre : List (Assigned × Consumer.InitAnswer)}
    (h : ∀ p ∈ pre, startLink s p.1 p.2 = true) {a : Assigned} {answer : Consumer.InitAnswer}
    (ha : startLink s a answer = false) (post : List (Assigned × Consumer.InitAnswer)) (next : Pid)
    (tmap : TopicsMap) :
    reducePartitions s next tmap (pre ++ (a, answer) :: post) =
      (starts (numbered next pre) ++ [.startFailed a.key], none) := by
  induction pre generalizing next tmap with
  | nil => simp [reducePartitions, ha, numbered, starts]
  | cons p pre ih =>
    obtain ⟨hp, hpre⟩ := List.forall_mem_cons.1 h
    simp [reducePartitions, hp, ih hpre, numbered, starts]

theorem stopConsumers_some (es : List Entry) : stopConsumers (es.map some) = (stops es, true) := by
  induction es with
  | nil => rfl
  | cons e es ih => simp [stopConsumers, ih, stops]

theorem stopConsumers_none {ps : List (Option Entry)} (h : none ∈ ps) :
    (stopConsumers ps).2 = false := by
  induction ps with
  | nil => cases h
  | cons p ps ih =>
    cases p with
    | none => rfl
    | some e => simpa [stopConsumers] using ih (by simpa using h)

theorem terminate_eq (s : State) :
    terminate s = stops (values s.activeTopicsMap) ++ [.consumerCleanup] := by
  rw [terminate, stopConsumers_some]

theorem mem_values {m : TopicsMap} {e : Entry} : e ∈ values m ↔ ∃ tp, m.lookup tp = some e := by
  simp only [values, List.mem_map, Sigma.exists, exists_eq_right]
  exact exists_congr fun tp => AList.mem_lookup_iff.symm

/-- The group has terminated after what it did. -/
def World.terminated (w : World) (es : List Effect) : World :=
  { w with running := false, history := w.history ++ es ++ terminate w.state }

theorem handled_assign_ok {w : World} {ps : List (Assigned × Consumer.InitAnswer)}
    (h : ∀ p ∈ ps, startLink w.state p.1 p.2 = true) :
    w.handled (handleInfo w.next w.state (.assignPartitions ps)) =
      { w with
        state := { w.state with
          activeTopicsMap := insertAll w.state.activeTopicsMap (numbered w.next ps) }
        next := w.next + ps.length
        history := w.history ++ starts (numbered w.next ps) } := by
  simp [handleInfo, reducePartitions_ok h, World.handled]

theorem handled_assign_fail {w : World} {pre : List (Assigned × Consumer.InitAnswer)}
    (h : ∀ p ∈ pre, startLink w.state p.1 p.2 = true) {a : Assigned}
    {answer : Consumer.InitAnswer} (ha : startLink w.state a answer = false)
    (post : List (Assigned × Consumer.InitAnswer)) :
    w.handled (handleInfo w.next w.state (.assignPartitions (pre ++ (a, answer) :: post))) =
      w.terminated (starts (numbered w.next pre) ++ [.startFailed a.key]) := by
  simp [handleInfo, reducePartitions_fail h ha, World.handled, World.terminated]

theorem handled_revoke_ok {w : World} {tps : List TopicPartition} {es : List Entry}
    (h : tps.map w.state.activeTopicsMap.lookup = es.map some) :
    w.handled (handleInfo w.next w.state (.revokePartitions tps)) =
      { w with
        state := { w.state with activeTopicsMap := ∅ }
        history := w.history ++ revokes es } := by
  have hs : startedIn (stops es ++ [.partitionRevokeCompleted]) = [] := startedIn_revokes es
  simp [handleInfo, getPidQueuePairs, h, stopConsumers_some, World.handled, revokes, hs]

theorem handled_revoke_fail {w : World} {tps : List TopicPartition} {tp : TopicPartition}
    (htp : tp ∈ tps) (h : tp ∉ w.state.activeTopicsMap) :
    ∃ es, w.handled (handleInfo w.next w.state (.revokePartitions tps)) = w.terminated es := by
  have hnone : none ∈ getPidQueuePairs w.state.activeTopicsMap tps :=
    List.mem_map.2 ⟨tp, htp, AList.lookup_eq_none.2 h⟩
  have hs := stopConsumers_none hnone
  refine ⟨(stopConsumers (getPidQueuePairs w.state.activeTopicsMap tps)).1, ?_⟩
  cases hp : stopConsumers (getPidQueuePairs w.state.activeTopicsMap tps) with
  | mk es ok =>
    obtain rfl : ok = false := by simpa [hp] using hs
    simp [handleInfo, hp, World.handled, World.terminated]

/-- The entries of partitions that are in the map. -/
theorem exists_entries {m : TopicsMap} {tps : List TopicPartition} (h : ∀ tp ∈ tps, tp ∈ m) :
    ∃ es : List Entry, tps.map m.lookup = es.map some := by
  induction tps with
  | nil => exact ⟨[], rfl⟩
  | cons tp tps ih =>
    obtain ⟨htp, htps⟩ := List.forall_mem_cons.1 h
    obtain ⟨e, he⟩ := Option.isSome_iff_exists.1 (AList.lookup_isSome.2 htp)
    obtain ⟨es, hes⟩ := ih htps
    exact ⟨e :: es, by simp [he, hes]⟩

theorem handleInfo_other {w : World} {m : Info} (ha : ∀ ps, m ≠ .assignPartitions ps)
    (hr : ∀ tps, m ≠ .revokePartitions tps) :
    (∃ s' es, w.handled (handleInfo w.next w.state m) =
        { w with state := s', history := w.history ++ es } ∧
      s'.activeTopicsMap = w.state.activeTopicsMap ∧ startedIn es = [] ∧ stoppedIn es = [] ∧
      .consumerCleanup ∉ es) ∨
    (w.handled (handleInfo w.next w.state m)).running = false := by
  cases m with
  | stats decoded =>
    refine Or.inl ⟨{ w.state with stats := decoded },
      callStatsCallback w.state.statsCb w.state.clientId decoded, ?_⟩
    unfold callStatsCallback
    split <;> simp_all [handleInfo, callStatsCallback, World.handled, startedIn, stoppedIn]
  | assignPartitions ps => exact absurd rfl (ha ps)
  | revokePartitions tps => exact absurd rfl (hr tps)
  | exit sender reason =>
    have hquiet : w.handled (.noreply w.state []) =
        { w with state := w.state, history := w.history ++ [] } := rfl
    simp only [handleInfo]
    split_ifs
    · exact Or.inl ⟨_, _, hquiet, rfl, rfl, rfl, List.not_mem_nil⟩
    · exact Or.inl ⟨_, _, hquiet, rfl, rfl, rfl, List.not_mem_nil⟩
    · exact Or.inr rfl
  | other info => exact Or.inl ⟨w.state, [], rfl, rfl, rfl, rfl, List.not_mem_nil⟩

/-- A message leaves the map alone, extends it by an assignment, empties it after a revocation, or
ends the group. -/
theorem step_cases {w w' : World} {m : Info} (h : step w m = some w') :
    w.running = true ∧ w.newQueues m = true ∧
    ((∃ s' es, w' = { w with state := s', history := w.history ++ es } ∧
        s'.activeTopicsMap = w.state.activeTopicsMap ∧ startedIn es = [] ∧ stoppedIn es = [] ∧
        .consumerCleanup ∉ es) ∨
      (∃ ps, m = .assignPartitions ps ∧ w' = { w with
        state := { w.state with
          activeTopicsMap := insertAll w.state.activeTopicsMap (numbered w.next ps) }
        next := w.next + ps.length
        history := w.history ++ starts (numbered w.next ps) }) ∨
      (∃ tps es, m = .revokePartitions tps ∧
        tps.map w.state.activeTopicsMap.lookup = es.map some ∧ w' = { w with
          state := { w.state with activeTopicsMap := ∅ }
          history := w.history ++ revokes es }) ∨
      w'.running = false) := by
  simp only [step, Bool.and_eq_true] at h
  split at h
  case isFalse => cases h
  case isTrue hw =>
    refine ⟨hw.1, hw.2, ?_⟩
    obtain rfl := Option.some.inj h
    cases m with
    | assignPartitions ps =>
      by_cases hall : ∀ p ∈ ps, startLink w.state p.1 p.2 = true
      · exact Or.inr (Or.inl ⟨ps, rfl, handled_assign_ok hall⟩)
      · obtain ⟨pre, a, answer, post, rfl, hpre, ha⟩ := exists_first_failure hall
        exact Or.inr (Or.inr (Or.inr (by rw [handled_assign_fail hpre ha]; rfl)))
    | revokePartitions tps =>
      by_cases hall : ∀ tp ∈ tps, tp ∈ w.state.activeTopicsMap
      · obtain ⟨es, hes⟩ := exists_entries hall
        exact Or.inr (Or.inr (Or.inl ⟨tps, es, rfl, hes, handled_revoke_ok hes⟩))
      · obtain ⟨tp, htp, hno⟩ : ∃ tp ∈ tps, tp ∉ w.state.activeTopicsMap := by
          simpa using hall
        obtain ⟨es, hes⟩ := handled_revoke_fail htp hno
        exact Or.inr (Or.inr (Or.inr (by rw [hes]; rfl)))
    | stats decoded =>
      exact (handleInfo_other (by simp) (by simp)).imp_right fun h => Or.inr (Or.inr h)
    | exit sender reason =>
      exact (handleInfo_other (by simp) (by simp)).imp_right fun h => Or.inr (Or.inr h)
    | other info =>
      exact (handleInfo_other (by simp) (by simp)).imp_right fun h => Or.inr (Or.inr h)

/-! ## The invariant -/

/-- What holds of a running group. -/
structure Consistent (w : World) : Prop where
  pids_lt : ∀ c ∈ startedIn w.history, c.2.pid < w.next
  pids_nodup : ((startedIn w.history).map (·.2.pid)).Nodup
  queues_nodup : ((startedIn w.history).map (·.2.queueRef)).Nodup
  stopped_lt : ∀ pid ∈ stoppedIn w.history, pid < w.next
  /-- Every entry of the map is a consumer that was started. -/
  entries : ∀ tp e, w.state.activeTopicsMap.lookup tp = some e → (tp, e) ∈ startedIn w.history
  /-- The client has not been cleaned up. -/
  client : .consumerCleanup ∉ w.history

theorem consistent_start (s : State) : Consistent (World.start s) where
  pids_lt := by simp [World.start, startedIn]
  pids_nodup := by simp [World.start, startedIn]
  queues_nodup := by simp [World.start, startedIn]
  stopped_lt := by simp [World.start, stoppedIn]
  entries := by simp [World.start]
  client := by simp [World.start]

/-- The consumer is determined by its process. -/
theorem Consistent.eq_of_pid {w : World} (h : Consistent w) {c d : TopicPartition × Entry}
    (hc : c ∈ startedIn w.history) (hd : d ∈ startedIn w.history) (hpid : c.2.pid = d.2.pid) :
    c = d :=
  List.inj_on_of_nodup_map h.pids_nodup hc hd hpid

/-- The consumer is determined by its queue. -/
theorem Consistent.eq_of_queue {w : World} (h : Consistent w) {c d : TopicPartition × Entry}
    (hc : c ∈ startedIn w.history) (hd : d ∈ startedIn w.history)
    (hqueue : c.2.queueRef = d.2.queueRef) : c = d :=
  List.inj_on_of_nodup_map h.queues_nodup hc hd hqueue

theorem mem_numbered_pid {next : Pid} {ps : List (Assigned × Consumer.InitAnswer)}
    {c : TopicPartition × Entry} (h : c ∈ numbered next ps) :
    next ≤ c.2.pid ∧ c.2.pid < next + ps.length := by
  have hmem : c.2.pid ∈ (numbered next ps).map (·.2.pid) := List.mem_map_of_mem h
  rw [numbered_pids, List.mem_range'_1] at hmem
  exact hmem

theorem Consistent.assign {w : World} (h : Consistent w)
    {ps : List (Assigned × Consumer.InitAnswer)}
    (hnew : w.newQueues (.assignPartitions ps) = true) :
    Consistent { w with
      state := { w.state with
        activeTopicsMap := insertAll w.state.activeTopicsMap (numbered w.next ps) }
      next := w.next + ps.length
      history := w.history ++ starts (numbered w.next ps) } := by
  simp only [World.newQueues, Bool.and_eq_true, decide_eq_true_eq, List.all_eq_true,
    bne_iff_ne] at hnew
  constructor
  · intro c hc
    rw [startedIn_append, startedIn_starts, List.mem_append] at hc
    rcases hc with hc | hc
    · exact (h.pids_lt c hc).trans_le (Nat.le_add_right _ _)
    · exact (mem_numbered_pid hc).2
  · rw [startedIn_append, startedIn_starts, List.map_append, List.nodup_append']
    refine ⟨h.pids_nodup, numbered_pids w.next ps ▸ List.nodup_range', ?_⟩
    intro pid hold hnum
    obtain ⟨c, hc, rfl⟩ := List.mem_map.1 hold
    obtain ⟨d, hd, hdc⟩ := List.mem_map.1 hnum
    have hpid : d.2.pid = c.2.pid := hdc
    have hlt : d.2.pid < w.next := hpid ▸ h.pids_lt c hc
    exact absurd (mem_numbered_pid hd).1 (Nat.not_le.2 hlt)
  · rw [startedIn_append, startedIn_starts, List.map_append, List.nodup_append', numbered_queues]
    refine ⟨h.queues_nodup, hnew.1, ?_⟩
    intro q hold hps
    obtain ⟨c, hc, rfl⟩ := List.mem_map.1 hold
    obtain ⟨p, hp, hpc⟩ := List.mem_map.1 hps
    exact hnew.2 p hp c hc hpc.symm
  · intro pid hpid
    rw [stoppedIn_append, stoppedIn_starts, List.append_nil] at hpid
    exact (h.stopped_lt pid hpid).trans_le (Nat.le_add_right _ _)
  · intro tp e he
    rw [startedIn_append, startedIn_starts, List.mem_append]
    exact (mem_of_lookup_insertAll he).symm.imp_left (h.entries tp e)
  · simpa [starts] using h.client

theorem Consistent.revoke {w : World} (h : Consistent w) {tps : List TopicPartition}
    {es : List Entry} (hes : tps.map w.state.activeTopicsMap.lookup = es.map some) :
    Consistent { w with
      state := { w.state with activeTopicsMap := ∅ }
      history := w.history ++ revokes es } := by
  constructor
  · simpa using h.pids_lt
  · simpa using h.pids_nodup
  · simpa using h.queues_nodup
  · intro pid hpid
    rw [stoppedIn_append, stoppedIn_revokes, List.mem_append] at hpid
    rcases hpid with hpid | hpid
    · exact h.stopped_lt pid hpid
    · obtain ⟨e, he, rfl⟩ := List.mem_map.1 hpid
      have hsome : some e ∈ tps.map w.state.activeTopicsMap.lookup :=
        hes ▸ List.mem_map_of_mem he
      obtain ⟨tp, -, htp⟩ := List.mem_map.1 hsome
      exact h.pids_lt _ (h.entries tp e htp)
  · simp
  · simpa [revokes, stops] using h.client

theorem Consistent.quiet {w : World} (h : Consistent w) {s' : State} {es : List Effect}
    (hmap : s'.activeTopicsMap = w.state.activeTopicsMap) (hstarted : startedIn es = [])
    (hstopped : stoppedIn es = []) (hclient : .consumerCleanup ∉ es) :
    Consistent { w with state := s', history := w.history ++ es } := by
  constructor
  · simpa [hstarted] using h.pids_lt
  · simpa [hstarted] using h.pids_nodup
  · simpa [hstarted] using h.queues_nodup
  · simpa [hstopped] using h.stopped_lt
  · simpa [hstarted, hmap] using h.entries
  · simpa [hclient] using h.client

/-- **One message keeps a running group consistent.** -/
theorem Consistent.step {w w' : World} {m : Info} (h : Consistent w) (hstep : step w m = some w')
    (hrun : w'.running = true) : Consistent w' := by
  obtain ⟨-, hnew,
    ⟨s', es, rfl, hmap, hs, hp, hc⟩ | ⟨ps, rfl, rfl⟩ | ⟨tps, es, rfl, hes, rfl⟩ | hw⟩ :=
    step_cases hstep
  · exact h.quiet hmap hs hp hc
  · exact h.assign hnew
  · exact h.revoke hes
  · rw [hw] at hrun
    cases hrun

theorem consistent_of_reachable {s : State} {w : World}
    (hreach : Reachable step (World.start s) w) (hrun : w.running = true) : Consistent w := by
  refine hreach.invariant (P := fun w => w.running = true → Consistent w)
    (fun _ => consistent_start s) (fun v m v' hv hstep hrun' => ?_) hrun
  exact (hv (step_cases hstep).1).step hstep hrun'

/-- A group whose topics have empty settings. -/
def sampleState : State := ⟨"group", .ref 0, fun _ => some [], ∅, .undefined, .undefined⟩

/-- Partition `i` of a topic, with its own queue. -/
def sampleAssigned (i : ℕ) : Assigned × Consumer.InitAnswer :=
  (⟨[101], i, -1, .ref (i + 1)⟩, .ok .nil)

end Exrdkafka.ConsumerGroup
