import Exrdkafka.ConsumerGroup.History

/-!
# The exits a consumer group is told of

A consumer group traps exits. It is told of the end of every consumer it has started, also of those
it has stopped, at any time after the end, and of the end of other linked processes.

* `Restarts`: an exit ends the group exactly when it is that of the consumer of an assigned
  partition, and changes nothing otherwise.
* `Attended`: what follows from it for the states of a run. No assigned partition has a consumer
  whose exit was received, and a consumer that was stopped is not in the map.
* `restarts_iff_of_run`: the group looks at the reason of an exit and at the size of the map, not at
  the process. So a run is as it should be exactly when the two tell the consumers of assigned
  partitions from all other processes.
-/

namespace Exrdkafka.ConsumerGroup

open Machine Directory

/-! ## The group and the exits it has received -/

/-- A consumer group with the processes whose exit it has received. -/
structure Watch where
  group : World
  exited : List Pid

/-- The process whose exit a message tells of. -/
def Info.sender? : Info → Option Pid
  | .exit sender _ => some sender
  | _ => none

namespace Watch

/-- A group that has received no exit. -/
def start (s : State) : Watch := ⟨World.start s, []⟩

/-- A process ends once, and the identifier of a process that has ended is not given out again. -/
def possible (v : Watch) : Info → Bool
  | .exit sender _ => decide (sender ∉ v.exited)
  | .assignPartitions ps =>
    v.exited.all fun pid => decide (pid < v.group.next ∨ v.group.next + ps.length ≤ pid)
  | _ => true

/-- One message. -/
def step (v : Watch) (m : Info) : Option Watch :=
  if v.possible m then
    (ConsumerGroup.step v.group m).map fun w => ⟨w, v.exited ++ m.sender?.toList⟩
  else none

end Watch

/-- The consumer of an assigned partition. -/
def Active (w : World) (pid : Pid) : Prop :=
  pid ∈ (values w.state.activeTopicsMap).map (·.pid)

instance (w : World) (pid : Pid) : Decidable (Active w pid) :=
  inferInstanceAs (Decidable (pid ∈ (values w.state.activeTopicsMap).map (·.pid)))

/-- An exit ends the group exactly when it is that of the consumer of an assigned partition. -/
def Restarts (v : Watch) (m : Info) : Prop :=
  ∀ sender v', m.sender? = some sender → v.step m = some v' →
    (v'.group.running = false ↔ Active v.group sender) ∧
      (¬ Active v.group sender → v'.group = v.group)

/-- The consumers of a running group, as far as it has been told. -/
structure Attended (v : Watch) : Prop where
  /-- No partition has a dead consumer. -/
  exited : v.group.running = true → ∀ pid ∈ v.exited, ¬ Active v.group pid
  /-- The exit of a consumer that was stopped is not that of an assigned partition. -/
  stopped : v.group.running = true → ∀ pid ∈ stoppedIn v.group.history, ¬ Active v.group pid

/-- The reason and the size of the map tell whether the process is the consumer of an assigned
partition. -/
def Telling (v : Watch) : Info → Prop
  | .exit sender reason =>
    if Active v.group sender then reason ≠ .atom "normal"
    else reason = .atom "normal" ∨ v.group.state.activeTopicsMap.entries.length = 0
  | _ => True

/-! ## One exit -/

theorem active_iff {w : World} {pid : Pid} :
    Active w pid ↔ ∃ tp e, w.state.activeTopicsMap.lookup tp = some e ∧ e.pid = pid := by
  simp only [Active, List.mem_map, mem_values]
  exact ⟨fun ⟨e, ⟨tp, he⟩, hpid⟩ => ⟨tp, e, he, hpid⟩, fun ⟨tp, e, he, hpid⟩ => ⟨e, ⟨tp, he⟩, hpid⟩⟩

/-- The map of a group with an active consumer is not empty. -/
theorem Active.length_ne_zero {w : World} {pid : Pid} (h : Active w pid) :
    w.state.activeTopicsMap.entries.length ≠ 0 := by
  intro hnil
  simp [Active, values, List.length_eq_zero_iff.1 hnil] at h

theorem step_of_watch {v v' : Watch} {m : Info} (h : v.step m = some v') :
    v.possible m = true ∧ ConsumerGroup.step v.group m = some v'.group ∧
      v'.exited = v.exited ++ m.sender?.toList := by
  rw [Watch.step] at h
  split at h
  · obtain ⟨w, hw, rfl⟩ := Option.map_eq_some_iff.1 h
    exact ⟨‹_›, hw, rfl⟩
  · cases h

/-- An exit that is ignored changes nothing. -/
theorem step_exit_ignored {w w' : World} {sender : Pid} {reason : Term}
    (h : ConsumerGroup.step w (.exit sender reason) = some w')
    (hig : reason = .atom "normal" ∨ w.state.activeTopicsMap.entries.length = 0) :
    w' = w ∧ w.running = true := by
  simp only [step, World.newQueues, Bool.and_true] at h
  split at h
  case isFalse => cases h
  case isTrue hw =>
    obtain rfl := Option.some.inj h
    have hquiet : w.handled (.noreply w.state []) = w := by simp [World.handled, startedIn]
    refine ⟨?_, hw⟩
    rcases hig with hnormal | hlen
    · simpa only [handleInfo, if_pos hnormal] using hquiet
    · simpa only [handleInfo, if_pos hlen, ite_self] using hquiet

/-- Any other exit ends the group. -/
theorem step_exit_stops {w w' : World} {sender : Pid} {reason : Term}
    (h : ConsumerGroup.step w (.exit sender reason) = some w')
    (hig : ¬ (reason = .atom "normal" ∨ w.state.activeTopicsMap.entries.length = 0)) :
    w'.running = false := by
  obtain ⟨hnormal, hlen⟩ := not_or.1 hig
  simp only [step, World.newQueues, Bool.and_true] at h
  split at h
  case isFalse => cases h
  case isTrue hw =>
    obtain rfl := Option.some.inj h
    simp only [handleInfo, if_neg hnormal, if_neg hlen]
    rfl

theorem restarts_exit {v v' : Watch} {sender : Pid} {reason : Term}
    (h : v.step (.exit sender reason) = some v') : Restarts v (.exit sender reason) ↔
      ((v'.group.running = false ↔ Active v.group sender) ∧
        (¬ Active v.group sender → v'.group = v.group)) := by
  refine ⟨fun hall => hall sender v' rfl h, ?_⟩
  rintro hthis _ u ⟨⟩ hu
  rw [h] at hu
  exact Option.some.inj hu ▸ hthis

/-- **One message.** An exit ends the group when it should exactly when the reason and the size of
the map tell. -/
theorem restarts_iff {v v' : Watch} {m : Info} (h : v.step m = some v') :
    Restarts v m ↔ Telling v m := by
  cases m with
  | exit sender reason =>
    have hgroup := (step_of_watch h).2.1
    rw [restarts_exit h, Telling]
    by_cases hig : reason = .atom "normal" ∨ v.group.state.activeTopicsMap.entries.length = 0
    · obtain ⟨hsame, hrun⟩ := step_exit_ignored hgroup hig
      by_cases hactive : Active v.group sender
      · have hnormal : reason = .atom "normal" := hig.resolve_right hactive.length_ne_zero
        simp [hactive, hnormal, hsame, hrun]
      · simpa only [hactive, hsame, hrun, if_false] using iff_of_true (by simp) hig
    · have hstops := step_exit_stops hgroup hig
      by_cases hactive : Active v.group sender
      · simp [hactive, hstops, (not_or.1 hig).1]
      · simpa only [hactive, hstops, if_false] using iff_of_false (by simp) hig
  | _ => exact iff_of_true (fun sender _ hs => by cases hs) trivial

/-! ## Runs -/

/-- A consumer in the map after an assignment was there before, or is new. -/
theorem Active.of_insertAll {w : World} {ps : List (Assigned × Consumer.InitAnswer)} {pid : Pid}
    {next : Pid} {h : List Effect}
    (hactive : Active { w with
      state := { w.state with
        activeTopicsMap := insertAll w.state.activeTopicsMap (numbered w.next ps) }
      next := next
      history := h } pid) :
    Active w pid ∨ w.next ≤ pid ∧ pid < w.next + ps.length := by
  obtain ⟨tp, e, he, rfl⟩ := active_iff.1 hactive
  rcases mem_of_lookup_insertAll he with hnew | hold
  · exact Or.inr (mem_numbered_pid hnew)
  · exact Or.inl (active_iff.2 ⟨tp, e, hold, rfl⟩)

theorem not_active_empty {w : World} {pid : Pid} (h : w.state.activeTopicsMap = ∅) :
    ¬ Active w pid := by
  rw [active_iff, h]
  simp

/-- A message that is not an exit keeps the consumers attended. -/
theorem Attended.other {v v' : Watch} {m : Info} (hcons : Consistent v.group) (h : Attended v)
    (hm : m.sender? = none) (hstep : v.step m = some v') : Attended v' := by
  obtain ⟨hpossible, hgroup, hexited⟩ := step_of_watch hstep
  obtain ⟨hrun, -, hcases⟩ := step_cases hgroup
  obtain ⟨w', exited'⟩ := v'
  obtain rfl : exited' = v.exited := by simpa [hm] using hexited
  rcases hcases with ⟨s', es, rfl, hmap, -, hes, -⟩ | ⟨ps, rfl, rfl⟩ | ⟨tps, es, -, -, rfl⟩ | hw
  · have hsame (pid : Pid) : Active { v.group with state := s', history := v.group.history ++ es }
        pid ↔ Active v.group pid := by
      simp only [Active, hmap]
    refine ⟨fun _ pid hpid => ?_, fun _ pid hpid => ?_⟩
    · exact (hsame pid).not.2 (h.exited hrun pid hpid)
    · rw [stoppedIn_append, hes, List.append_nil] at hpid
      exact (hsame pid).not.2 (h.stopped hrun pid hpid)
  · refine ⟨fun _ pid hpid hactive => ?_, fun _ pid hpid hactive => ?_⟩
    · simp only [Watch.possible, List.all_eq_true, decide_eq_true_eq] at hpossible
      rcases hactive.of_insertAll with hold | ⟨hge, hlt⟩
      · exact h.exited hrun pid hpid hold
      · rcases hpossible pid hpid with hused | hused
        · exact absurd hused (Nat.not_lt.2 hge)
        · exact absurd hlt (Nat.not_lt.2 hused)
    · rw [stoppedIn_append, stoppedIn_starts, List.append_nil] at hpid
      rcases hactive.of_insertAll with hold | hnew
      · exact h.stopped hrun pid hpid hold
      · exact absurd (hcons.stopped_lt pid hpid) (Nat.not_lt.2 hnew.1)
  · exact ⟨fun _ _ _ => not_active_empty rfl, fun _ _ _ => not_active_empty rfl⟩
  · have hended (hrun' : w'.running = true) : False := Bool.false_ne_true (hw.symm.trans hrun')
    exact ⟨fun hrun' => (hended hrun').elim, fun hrun' => (hended hrun').elim⟩

/-- An exit that does what it should keeps the consumers attended. -/
theorem Attended.exit {v v' : Watch} {sender : Pid} {reason : Term} (h : Attended v)
    (hstep : v.step (.exit sender reason) = some v')
    (hrestarts : Restarts v (.exit sender reason)) : Attended v' := by
  obtain ⟨-, -, hexited⟩ := step_of_watch hstep
  obtain ⟨hiff, hsame⟩ := (restarts_exit hstep).1 hrestarts
  by_cases hactive : Active v.group sender
  · have hended (hrun' : v'.group.running = true) : False :=
      Bool.false_ne_true ((hiff.2 hactive).symm.trans hrun')
    exact ⟨fun hrun' => (hended hrun').elim, fun hrun' => (hended hrun').elim⟩
  · have hgroup := hsame hactive
    refine ⟨fun hrun pid hpid => ?_, hgroup ▸ h.stopped⟩
    rw [hgroup] at hrun ⊢
    rw [hexited, List.mem_append] at hpid
    rcases hpid with hpid | hpid
    · exact h.exited hrun pid hpid
    · obtain rfl : pid = sender := by simpa [Info.sender?] using hpid
      exact hactive

theorem attended_start (s : State) : Attended (Watch.start s) :=
  ⟨fun _ _ hpid => absurd hpid List.not_mem_nil, fun _ _ hpid => absurd hpid List.not_mem_nil⟩

/-- A group as it should be: consistent while it runs, and attended. -/
theorem attended_step {v v' : Watch} {m : Info}
    (h : (v.group.running = true → Consistent v.group) ∧ Attended v) (hstep : v.step m = some v')
    (htell : Telling v m) :
    (v'.group.running = true → Consistent v'.group) ∧ Attended v' := by
  obtain ⟨hcons, hatt⟩ := h
  obtain ⟨-, hgroup, -⟩ := step_of_watch hstep
  have hnow := hcons (step_cases hgroup).1
  refine ⟨fun hrun' => hnow.step hgroup hrun', ?_⟩
  cases m with
  | exit sender reason => exact hatt.exit hstep ((restarts_iff hstep).2 htell)
  | _ => exact hatt.other hnow rfl hstep

/-- **When the group restarts as it should.** In a run of a consumer group every exit ends it
exactly when it is that of the consumer of an assigned partition, and in every state no assigned
partition has a dead or a stopped consumer, exactly when the reason of every exit and the size of
the map tell the consumers of assigned partitions from all other processes. -/
theorem restarts_iff_of_run {s : State} {ms : List Info} {v : Watch}
    (hrun : run Watch.step (Watch.start s) ms = some v) :
    (Along Watch.step Restarts (Watch.start s) ms ∧
        Always Watch.step Attended (Watch.start s) ms) ↔
      Along Watch.step Telling (Watch.start s) ms := by
  rw [along_congr (fun _ _ _ => restarts_iff) hrun]
  refine and_iff_left_of_imp fun htell pre v hpre hv => ?_
  have hall := always_of_along (fun _ _ _ => attended_step)
    ⟨fun _ => consistent_start s, attended_start s⟩ htell
  exact (hall pre v hpre hv).2

/-- A partition is assigned and revoked, another one is assigned, and then the exit of the first
consumer arrives, which was killed: it ends the group. -/
def lateExit : List Info :=
  [.assignPartitions [sampleAssigned 0], .revokePartitions [([101], 0)],
    .assignPartitions [sampleAssigned 1], .exit 0 (.atom "killed")]

theorem lateExit_restarts : ¬ (Along Watch.step Restarts (Watch.start sampleState) lateExit ∧
    Always Watch.step Attended (Watch.start sampleState) lateExit) := by
  rintro ⟨hrestarts, -⟩
  have hlast : Restarts ⟨⟨{ sampleState with
      activeTopicsMap := insertAll (∅) [(([101], 1), ⟨1, .ref 2⟩)] }, true, 2,
      starts [(([101], 0), ⟨0, .ref 1⟩)] ++ revokes [⟨0, .ref 1⟩] ++
        starts [(([101], 1), ⟨1, .ref 2⟩)]⟩, []⟩ (.exit 0 (.atom "killed")) :=
    hrestarts (lateExit.take 3) _ _ (List.prefix_refl _) rfl
  have hactive := ((restarts_exit rfl).1 hlast).1.1 rfl
  revert hactive
  decide

/-- The same run when the first consumer has stopped in time. -/
theorem restarts_iff_of_run_sample :
    (Along Watch.step Restarts (Watch.start sampleState)
        (lateExit.take 3 ++ [.exit 0 (.atom "normal")]) ∧
      Always Watch.step Attended (Watch.start sampleState)
        (lateExit.take 3 ++ [.exit 0 (.atom "normal")])) ↔
    Along Watch.step Telling (Watch.start sampleState)
      (lateExit.take 3 ++ [.exit 0 (.atom "normal")]) :=
  restarts_iff_of_run (v := ⟨⟨{ sampleState with
      activeTopicsMap := insertAll (∅) [(([101], 1), ⟨1, .ref 2⟩)] }, true, 2,
      starts [(([101], 0), ⟨0, .ref 1⟩)] ++ revokes [⟨0, .ref 1⟩] ++
        starts [(([101], 1), ⟨1, .ref 2⟩)]⟩, [0]⟩) rfl

end Exrdkafka.ConsumerGroup
