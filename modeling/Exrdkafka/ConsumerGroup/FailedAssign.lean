import Exrdkafka.ConsumerGroup.History
import Exrdkafka.Foundations.Trace

/-!
# An assignment in which a start fails

When a consumer cannot be started the group raises in the middle of the assignment and terminates:
it stops the consumers of its map and cleans up the client. The map is the one from before the
assignment, so the consumers the assignment has started are not in it.
-/

namespace Exrdkafka.ConsumerGroup

open Machine Trace

/-- The consumer was stopped and its queue cleaned up. -/
def Released (h : List Effect) (c : TopicPartition × Entry) : Prop :=
  c.2.pid ∈ stoppedIn h ∧ .queueCleanup c.2.queueRef ∈ h

/-- The client is cleaned up only when every consumer started before is released. -/
def CleanShutdown (h : List Effect) : Prop :=
  AtEach (fun pre e => e = .consumerCleanup → ∀ c ∈ startedIn pre, Released pre c) h

theorem cleanShutdown_concat {h : List Effect} (hno : .consumerCleanup ∉ h) :
    CleanShutdown (h ++ [.consumerCleanup]) ↔ ∀ c ∈ startedIn h, Released h c := by
  have hh : CleanShutdown h := by
    rintro pre e post rfl rfl
    simp at hno
  rw [CleanShutdown, atEach_concat]
  exact (and_iff_right hh).trans (by simp)

/-- The effects of an assignment whose start for `tp` fails. -/
def partialStarts (cs : List (TopicPartition × Entry)) (tp : TopicPartition) : List Effect :=
  starts cs ++ [.startFailed tp]

@[simp] theorem startedIn_partialStarts (cs : List (TopicPartition × Entry))
    (tp : TopicPartition) : startedIn (partialStarts cs tp) = cs := by
  rw [partialStarts, startedIn_append, startedIn_starts]
  exact List.append_nil _

@[simp] theorem stoppedIn_partialStarts (cs : List (TopicPartition × Entry))
    (tp : TopicPartition) : stoppedIn (partialStarts cs tp) = [] := by
  rw [partialStarts, stoppedIn_append, stoppedIn_starts]
  rfl

/-- What the group has released when it cleans up the client after a failed assignment. -/
theorem released_failed_iff {h : List Effect} {cs : List (TopicPartition × Entry)}
    {tp : TopicPartition} {es : List Entry} {c : TopicPartition × Entry} :
    Released (h ++ partialStarts cs tp ++ stops es) c ↔
      (c.2.pid ∈ stoppedIn h ∨ ∃ e ∈ es, e.pid = c.2.pid) ∧
      (.queueCleanup c.2.queueRef ∈ h ∨ ∃ e ∈ es, e.queueRef = c.2.queueRef) := by
  have hstarts : .queueCleanup c.2.queueRef ∉ partialStarts cs tp := by
    simp [partialStarts, starts]
  have hcleaned : .queueCleanup c.2.queueRef ∈ stops es ↔ ∃ e ∈ es, e.queueRef = c.2.queueRef := by
    simp [stops, eq_comm]
  simp [Released, hcleaned, hstarts]

/-- `terminate` releases the consumers of the map. -/
theorem Consistent.released_iff {w : World} (h : Consistent w) {c : TopicPartition × Entry}
    (hc : c ∈ startedIn w.history) :
    ((c.2.pid ∈ stoppedIn w.history ∨
        ∃ e ∈ values w.state.activeTopicsMap, e.pid = c.2.pid) ∧
      (.queueCleanup c.2.queueRef ∈ w.history ∨
        ∃ e ∈ values w.state.activeTopicsMap, e.queueRef = c.2.queueRef)) ↔
      Released w.history c ∨ w.state.activeTopicsMap.lookup c.1 = some c.2 := by
  constructor
  · rintro ⟨hstop | ⟨e, he, hpid⟩, hclean⟩
    · rcases hclean with hclean | ⟨e, he, hqueue⟩
      · exact Or.inl ⟨hstop, hclean⟩
      · obtain ⟨tp, htp⟩ := mem_values.1 he
        have heq : (tp, e) = c := h.eq_of_queue (h.entries tp e htp) hc hqueue
        exact Or.inr (heq ▸ htp)
    · obtain ⟨tp, htp⟩ := mem_values.1 he
      have heq : (tp, e) = c := h.eq_of_pid (h.entries tp e htp) hc hpid
      exact Or.inr (heq ▸ htp)
  · rintro (⟨hstop, hclean⟩ | hmap)
    · exact ⟨Or.inl hstop, Or.inl hclean⟩
    · have hmem : c.2 ∈ values w.state.activeTopicsMap := mem_values.2 ⟨c.1, hmap⟩
      exact ⟨Or.inr ⟨c.2, hmem, rfl⟩, Or.inr ⟨c.2, hmem, rfl⟩⟩

/-- A consumer of the failed assignment is not stopped: its process is in no map entry. -/
theorem Consistent.not_stopped_of_new {w : World} (h : Consistent w)
    {pre : List (Assigned × Consumer.InitAnswer)} {c : TopicPartition × Entry}
    (hc : c ∈ numbered w.next pre) :
    ¬ (c.2.pid ∈ stoppedIn w.history ∨
      ∃ e ∈ values w.state.activeTopicsMap, e.pid = c.2.pid) := by
  have hge : w.next ≤ c.2.pid := (mem_numbered_pid hc).1
  rintro (hstop | ⟨e, he, hpid⟩)
  · exact absurd (h.stopped_lt _ hstop) (Nat.not_lt.2 hge)
  · obtain ⟨tp, htp⟩ := mem_values.1 he
    exact absurd (hpid ▸ h.pids_lt _ (h.entries tp e htp)) (Nat.not_lt.2 hge)

/-- **When a failed assignment leaves no consumer behind.** In any reachable state, an assignment
whose start fails after the starts `pre` have succeeded ends with all consumers released exactly
when `pre` is empty and every consumer started earlier is released or still in the map. -/
theorem failedAssign_clean_iff {s : State} {w w' : World}
    (hreach : Reachable step (World.start s) w) {pre : List (Assigned × Consumer.InitAnswer)}
    (hpre : ∀ p ∈ pre, startLink w.state p.1 p.2 = true) (a : Assigned)
    (answer : Consumer.InitAnswer) (ha : startLink w.state a answer = false)
    (post : List (Assigned × Consumer.InitAnswer))
    (hstep : step w (.assignPartitions (pre ++ (a, answer) :: post)) = some w') :
    CleanShutdown w'.history ↔ pre = [] ∧ ∀ c ∈ startedIn w.history,
      Released w.history c ∨ w.state.activeTopicsMap.lookup c.1 = some c.2 := by
  obtain ⟨hrun, hnew, -⟩ := step_cases hstep
  have hcons := consistent_of_reachable hreach hrun
  simp only [step, hrun, hnew, Bool.and_self, if_true, handled_assign_fail hpre ha] at hstep
  obtain rfl := Option.some.inj hstep
  have hno : .consumerCleanup ∉ w.history ++ partialStarts (numbered w.next pre) a.key ++
      stops (values w.state.activeTopicsMap) := by
    simp [hcons.client, partialStarts, starts, stops]
  simp only [World.terminated, terminate_eq, ← List.append_assoc]
  rw [List.append_assoc w.history, ← partialStarts, cleanShutdown_concat hno]
  simp only [startedIn_append, startedIn_partialStarts, startedIn_stops, List.append_nil,
    released_failed_iff]
  constructor
  · intro hall
    refine ⟨?_, fun c hc => (hcons.released_iff hc).1 (hall c (List.mem_append_left _ hc))⟩
    cases pre with
    | nil => rfl
    | cons p pre =>
      have hc : (p.1.key, ⟨w.next, p.1.queueRef⟩) ∈ numbered w.next (p :: pre) :=
        List.mem_cons_self
      exact absurd (hall _ (List.mem_append_right _ hc)).1 (hcons.not_stopped_of_new hc)
  · rintro ⟨rfl, hall⟩ c hc
    rw [numbered, List.append_nil] at hc
    exact (hcons.released_iff hc).2 (hall c hc)

/-- The callback of the second of two partitions refuses to start: the first consumer is left behind
when the client is cleaned up. -/
theorem secondStart_fails : ∃ w', step (World.start sampleState)
      (.assignPartitions [sampleAssigned 0, ((sampleAssigned 1).1, .other .undefined)]) = some w' ∧
    ¬ CleanShutdown w'.history := by
  refine ⟨⟨sampleState, false, 0,
    [.started ([101], 0) ⟨0, .ref 1⟩, .startFailed ([101], 1), .consumerCleanup]⟩, rfl, ?_⟩
  intro h
  have hreleased := h [.started ([101], 0) ⟨0, .ref 1⟩, .startFailed ([101], 1)] .consumerCleanup []
    rfl rfl (([101], 0), ⟨0, .ref 1⟩) (by simp [startedIn])
  exact absurd hreleased.1 (by simp [stoppedIn])

/-- A group with a consumer for the first partition. -/
def oneAssigned : World :=
  ⟨{ sampleState with activeTopicsMap := (∅ : TopicsMap).insert ([101], 0) ⟨0, .ref 1⟩ }, true, 1,
    [.started ([101], 0) ⟨0, .ref 1⟩]⟩

/-- The next assignment starts a consumer for the second partition and fails on the third:
`terminate` releases the first consumer, and the second one is left behind. -/
def oneAssignedFails : World :=
  { oneAssigned with
    running := false
    history := oneAssigned.history ++ [.started ([101], 1) ⟨1, .ref 2⟩, .startFailed ([101], 2),
      .stop 0, .queueCleanup (.ref 1), .consumerCleanup] }

theorem failedAssign_clean_iff_sample :
    CleanShutdown oneAssignedFails.history ↔ [sampleAssigned 1] = [] ∧
      ∀ c ∈ startedIn oneAssigned.history, Released oneAssigned.history c ∨
        oneAssigned.state.activeTopicsMap.lookup c.1 = some c.2 :=
  failedAssign_clean_iff (s := sampleState) (w := oneAssigned)
    ⟨[.assignPartitions [sampleAssigned 0]], rfl⟩ (List.forall_mem_singleton.2 rfl)
    (sampleAssigned 2).1 (.other .undefined) rfl []
    (show step _ _ = some oneAssignedFails from rfl)

end Exrdkafka.ConsumerGroup
