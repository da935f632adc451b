import Exrdkafka.ConsumerGroup.History

/-!
# One consumer for each assigned partition

A rebalance is a run of assign and revoke messages. `OneConsumerEach` is what it should keep: the
consumers started and not yet stopped are those in `active_topics_map`, one for each partition.

An assignment files its consumers over whatever is in the map, and a revocation stops the consumers
of the partitions it lists but empties the whole map. `always_oneConsumerEach_iff` says which
rebalances are safe: those that assign a partition only while it is not assigned, and revoke exactly
the assigned partitions.
-/

namespace Exrdkafka.ConsumerGroup

open Machine Directory

/-! ## The property -/

/-- The running consumers are the ones in the map. -/
structure OneConsumerEach (w : World) : Prop where
  /-- The group has not crashed. -/
  running : w.running = true
  /-- The live processes are those in the map. -/
  pids : ∀ pid, (∃ c ∈ liveIn w.history, c.2.pid = pid) ↔
    ∃ tp e, w.state.activeTopicsMap.lookup tp = some e ∧ e.pid = pid
  /-- A partition has one live consumer at most. -/
  one : ∀ c ∈ liveIn w.history, ∀ d ∈ liveIn w.history, c.1 = d.1 → c = d
  /-- An entry has the partition and the queue its consumer was started with. -/
  queues : ∀ tp e, w.state.activeTopicsMap.lookup tp = some e → ∀ c ∈ liveIn w.history,
    c.2.pid = e.pid → c.1 = tp ∧ c.2.queueRef = e.queueRef

theorem oneConsumerEach_iff {w : World} (h : Consistent w) :
    OneConsumerEach w ↔
      w.running = true ∧ Agrees (liveIn w.history) w.state.activeTopicsMap := by
  constructor
  · intro hone
    refine ⟨hone.running, fun tp e => ⟨fun hc => ?_, fun he => ?_⟩⟩
    · obtain ⟨tp', e', he', hpid⟩ := (hone.pids e.pid).1 ⟨(tp, e), hc, rfl⟩
      have heq := h.eq_of_pid (mem_liveIn.1 hc).1 (h.entries tp' e' he') hpid.symm
      rw [Prod.mk.injEq] at heq
      rw [heq.1, heq.2, he']
    · obtain ⟨c, hc, hpid⟩ := (hone.pids e.pid).2 ⟨tp, e, he, rfl⟩
      exact h.eq_of_pid (mem_liveIn.1 hc).1 (h.entries tp e he) hpid ▸ hc
  · rintro ⟨hrun, hagree⟩
    refine ⟨hrun, fun pid => ⟨?_, ?_⟩, ?_, ?_⟩
    · rintro ⟨c, hc, rfl⟩
      exact ⟨c.1, c.2, (hagree c.1 c.2).1 hc, rfl⟩
    · rintro ⟨tp, e, he, rfl⟩
      exact ⟨(tp, e), (hagree tp e).2 he, rfl⟩
    · rintro ⟨tp, e⟩ hc ⟨tp', e'⟩ hd (rfl : tp = tp')
      have hee : some e = some e' := ((hagree tp e).1 hc).symm.trans ((hagree tp e').1 hd)
      rw [Option.some.inj hee]
    · intro tp e he c hc hpid
      have heq := h.eq_of_pid (mem_liveIn.1 hc).1 (h.entries tp e he) hpid
      exact ⟨congrArg Prod.fst heq, congrArg (·.2.queueRef) heq⟩

/-! ## Rebalances -/

/-- Every start of an assignment succeeds. -/
def startsSucceed (s : State) : Info → Bool
  | .assignPartitions ps => ps.all fun p => startLink s p.1 p.2
  | _ => true

/-- The messages of the rebalance callback. -/
def Info.isRebalance : Info → Bool
  | .assignPartitions _ | .revokePartitions _ => true
  | _ => false

/-- One message of a rebalance in which all starts succeed. -/
def rebalance (w : World) (m : Info) : Option World :=
  if m.isRebalance && startsSucceed w.state m then step w m else none

/-- An assignment lists distinct partitions that are not assigned, a revocation exactly the assigned
partitions. -/
def Exact (w : World) : Info → Prop
  | .assignPartitions ps =>
    (ps.map (·.1.key)).Nodup ∧ ∀ tp ∈ ps.map (·.1.key), tp ∉ w.state.activeTopicsMap
  | .revokePartitions tps => ∀ tp, tp ∈ tps ↔ tp ∈ w.state.activeTopicsMap
  | _ => True

theorem liveIn_nodup {w : World} (h : Consistent w) : (liveIn w.history).Nodup :=
  (List.Nodup.of_map _ h.pids_nodup).filter _

theorem liveIn_starts {w : World} (h : Consistent w)
    (ps : List (Assigned × Consumer.InitAnswer)) :
    liveIn (w.history ++ starts (numbered w.next ps)) =
      liveIn w.history ++ numbered w.next ps := by
  have hnew : ∀ c ∈ numbered w.next ps, c.2.pid ∉ stoppedIn w.history := fun c hc hstop =>
    absurd (h.stopped_lt _ hstop) (Nat.not_lt.2 (mem_numbered_pid hc).1)
  simpa [liveIn, List.filter_append] using hnew

theorem mem_liveIn_revokes {h : List Effect} {es : List Entry} {c : TopicPartition × Entry} :
    c ∈ liveIn (h ++ revokes es) ↔ c ∈ liveIn h ∧ c.2.pid ∉ es.map (·.pid) := by
  simp only [mem_liveIn, startedIn_append, startedIn_revokes, List.append_nil, stoppedIn_append,
    stoppedIn_revokes, List.mem_append, not_or, and_assoc]

/-- A revocation stops every live consumer exactly when it lists every assigned partition. -/
theorem liveIn_revokes_eq_nil_iff {w : World} (h : Consistent w)
    (hagree : Agrees (liveIn w.history) w.state.activeTopicsMap) {tps : List TopicPartition}
    {es : List Entry} (hes : tps.map w.state.activeTopicsMap.lookup = es.map some) :
    liveIn (w.history ++ revokes es) = [] ↔ ∀ tp, tp ∈ w.state.activeTopicsMap → tp ∈ tps := by
  rw [List.eq_nil_iff_forall_not_mem]
  constructor
  · intro hnone tp htp
    obtain ⟨e, he⟩ := Option.isSome_iff_exists.1 (AList.lookup_isSome.2 htp)
    have hstopped : e.pid ∈ es.map (·.pid) := by
      by_contra hno
      exact hnone (tp, e) (mem_liveIn_revokes.2 ⟨(hagree tp e).2 he, hno⟩)
    obtain ⟨e', he', hpid⟩ := List.mem_map.1 hstopped
    have hsome : some e' ∈ tps.map w.state.activeTopicsMap.lookup := hes ▸ List.mem_map_of_mem he'
    obtain ⟨tp', htp', hlookup⟩ := List.mem_map.1 hsome
    have heq := h.eq_of_pid (h.entries tp' e' hlookup) (h.entries tp e he) hpid
    have htt : tp' = tp := congrArg Prod.fst heq
    exact htt ▸ htp'
  · rintro hall ⟨tp, e⟩ hc
    obtain ⟨hlive, hno⟩ := mem_liveIn_revokes.1 hc
    have he := (hagree tp e).1 hlive
    have htp := hall tp (AList.lookup_isSome.1 (by simp [he]))
    have hsome : some e ∈ es.map some := hes ▸ List.mem_map.2 ⟨tp, htp, he⟩
    obtain ⟨e', he', hee⟩ := List.mem_map.1 hsome
    exact hno (List.mem_map.2 ⟨e', he', congrArg Entry.pid (Option.some.inj hee)⟩)

theorem step_of_rebalance {w w' : World} {m : Info} (h : rebalance w m = some w') :
    m.isRebalance = true ∧ startsSucceed w.state m = true ∧ step w m = some w' := by
  simp only [rebalance, Bool.and_eq_true] at h
  split at h
  · rename_i hm
    exact ⟨hm.1, hm.2, h⟩
  · cases h

theorem oneConsumerEach_assign {w : World} (h : Consistent w) (hw : OneConsumerEach w)
    {ps : List (Assigned × Consumer.InitAnswer)}
    (hnew : w.newQueues (.assignPartitions ps) = true)
    (hps : ∀ p ∈ ps, startLink w.state p.1 p.2 = true) :
    OneConsumerEach (w.handled (handleInfo w.next w.state (.assignPartitions ps))) ↔
      Exact w (.assignPartitions ps) := by
  obtain ⟨hrun, hagree⟩ := (oneConsumerEach_iff h).1 hw
  have h' := h.assign hnew
  have hnd := liveIn_nodup h'
  rw [liveIn_starts h] at hnd
  rw [handled_assign_ok hps, oneConsumerEach_iff h', liveIn_starts h,
    agrees_append_insertAll_iff hagree hnd, numbered_keys]
  exact and_iff_right hrun

theorem oneConsumerEach_revoke {w : World} (h : Consistent w) (hw : OneConsumerEach w)
    (tps : List TopicPartition) :
    OneConsumerEach (w.handled (handleInfo w.next w.state (.revokePartitions tps))) ↔
      Exact w (.revokePartitions tps) := by
  obtain ⟨hrun, hagree⟩ := (oneConsumerEach_iff h).1 hw
  by_cases hall : ∀ tp ∈ tps, tp ∈ w.state.activeTopicsMap
  · obtain ⟨es, hes⟩ := exists_entries hall
    rw [handled_revoke_ok hes, oneConsumerEach_iff (h.revoke hes), agrees_empty_iff,
      liveIn_revokes_eq_nil_iff h hagree hes]
    refine (and_iff_right hrun).trans ⟨fun hsub tp => ⟨hall tp, hsub tp⟩, fun hexact tp => ?_⟩
    exact (hexact tp).2
  · obtain ⟨tp, htp, hno⟩ : ∃ tp ∈ tps, tp ∉ w.state.activeTopicsMap := by
      simpa using hall
    obtain ⟨es, hes⟩ := handled_revoke_fail htp hno
    rw [hes]
    refine iff_of_false (fun hone => ?_) fun hexact => hno ((hexact tp).1 htp)
    exact Bool.false_ne_true hone.running

/-- One message: the property is kept exactly by the messages that fit the map. -/
theorem oneConsumerEach_step {w w' : World} {m : Info} (h : w.running = true → Consistent w)
    (hw : OneConsumerEach w) (hstep : rebalance w m = some w') :
    OneConsumerEach w' ↔ Exact w m := by
  obtain ⟨hreb, hsucc, hstep⟩ := step_of_rebalance hstep
  have hcons := h hw.running
  obtain ⟨-, hnew, -⟩ := step_cases hstep
  simp only [step, hw.running, hnew, Bool.and_self, if_true] at hstep
  obtain rfl := Option.some.inj hstep
  cases m with
  | assignPartitions ps =>
    exact oneConsumerEach_assign hcons hw hnew (by simpa [startsSucceed] using hsucc)
  | revokePartitions tps => exact oneConsumerEach_revoke hcons hw tps
  | stats => cases hreb
  | exit => cases hreb
  | other => cases hreb

theorem oneConsumerEach_start (s : State) : OneConsumerEach (World.start s) := by
  rw [oneConsumerEach_iff (consistent_start s)]
  exact ⟨rfl, agrees_empty_iff.2 rfl⟩

/-- **Which rebalances keep one consumer for each partition.** In a rebalance in which all starts
succeed, the live consumers are those of the map after every message exactly when every assignment
lists distinct unassigned partitions and every revocation exactly the assigned ones. -/
theorem always_oneConsumerEach_iff {s : State} {ms : List Info} {w : World}
    (hrun : run rebalance (World.start s) ms = some w) :
    Always rebalance OneConsumerEach (World.start s) ms ↔
      Along rebalance Exact (World.start s) ms := by
  refine always_iff_along (I := fun w => w.running = true → Consistent w) ?_
    (fun _ _ _ => oneConsumerEach_step) (fun _ => consistent_start s) (oneConsumerEach_start s) hrun
  intro v m v' hv hstep hrun'
  obtain ⟨-, -, hstep⟩ := step_of_rebalance hstep
  exact (hv (step_cases hstep).1).step hstep hrun'

/-- Two partitions are assigned and one of them is revoked: the consumer of the other one lives on
and is not in the map. -/
theorem partialRevoke_leaks : ¬ Always rebalance OneConsumerEach (World.start sampleState)
    [.assignPartitions [sampleAssigned 0, sampleAssigned 1], .revokePartitions [([101], 0)]] := by
  intro h
  have hrun : run rebalance (World.start sampleState)
      [.assignPartitions [sampleAssigned 0, sampleAssigned 1], .revokePartitions [([101], 0)]] =
      some ⟨sampleState, true, 2, starts [(([101], 0), ⟨0, .ref 1⟩), (([101], 1), ⟨1, .ref 2⟩)] ++
        revokes [⟨0, .ref 1⟩]⟩ := rfl
  obtain ⟨tp, e, he, -⟩ := ((h.last hrun).pids 1).1 ⟨(([101], 1), ⟨1, .ref 2⟩), by decide, rfl⟩
  simp [sampleState] at he

/-- Two partitions are assigned and both are revoked. -/
theorem always_oneConsumerEach_iff_sample :
    Always rebalance OneConsumerEach (World.start sampleState)
        [.assignPartitions [sampleAssigned 0, sampleAssigned 1],
          .revokePartitions [([101], 1), ([101], 0)]] ↔
      Along rebalance Exact (World.start sampleState)
        [.assignPartitions [sampleAssigned 0, sampleAssigned 1],
          .revokePartitions [([101], 1), ([101], 0)]] :=
  always_oneConsumerEach_iff (w := ⟨sampleState, true, 2,
    starts [(([101], 0), ⟨0, .ref 1⟩), (([101], 1), ⟨1, .ref 2⟩)] ++
      revokes [⟨1, .ref 2⟩, ⟨0, .ref 1⟩]⟩) rfl

end Exrdkafka.ConsumerGroup
