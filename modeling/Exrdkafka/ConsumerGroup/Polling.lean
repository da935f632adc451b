import Exrdkafka.ConsumerGroup.Handling

/-!
# What the consumers poll

A consumer polls the queue of its partition without a lock, while librdkafka, the group and the
memory management of the Erlang machine work on the queues. Whatever they do and in whatever order,
the queue of a consumer that runs is its own, its resource has not been freed, the handle in it has
neither been cleaned up nor destroyed, and no message of it goes to the main queue before the
client is closed. Only of a consumer that was killed the queue may be cleaned up before it has ended
(`polled_of_run`).

`Member.Sound` is the invariant behind it.
-/

namespace Exrdkafka.Nif

/-! ## Queues that are still attached -/

/-- The accounts, and a handle that is still in its resource has not been destroyed. -/
structure Intact (s : Queues) : Prop where
  accounts : Accounts s
  attached : ∀ r < s.next, s.field r = some r → r ∉ s.freed → r ∈ s.qm.queues ∨ r ∈ s.cleared

theorem intact_start : Intact .start := ⟨accounts_start, fun _ hr => absurd hr (Nat.not_lt_zero _)⟩

theorem Accounts.newQueues {s : Queues} (h : Accounts s) (n : ℕ) : Accounts (s.newQueues n) := by
  induction n generalizing s with
  | zero => exact h
  | succ n ih => exact ih h.newQueue

theorem Intact.newQueues {s : Queues} (h : Intact s) (n : ℕ) : Intact (s.newQueues n) := by
  refine ⟨h.accounts.newQueues n, fun r hr hfield hfreed => ?_⟩
  rw [Queues.next_newQueues] at hr
  rw [Queues.freed_newQueues] at hfreed
  rw [Queues.mem_queues_newQueues, Queues.cleared_newQueues]
  rcases lt_or_ge r s.next with hold | hnew
  · rw [Queues.field_newQueues, if_neg (by omega)] at hfield
    exact (h.attached r hold hfield hfreed).imp_left .inl
  · exact .inl (.inr ⟨hnew, hr⟩)

theorem Intact.clearAll {s : Queues} (h : Intact s) : Intact s.clearAll := by
  refine ⟨h.accounts.clearAll, fun r hr hfield hfreed => .inr ?_⟩
  exact List.mem_append.2 (h.attached r hr hfield hfreed)

/-- Removing takes the handle of the resource out of the set. -/
theorem Accounts.mem_remove {s : Queues} (h : Accounts s) (r q : ℕ) :
    q ∈ (s.qm.remove (s.field r)).queues ↔ q ≠ r ∧ q ∈ s.qm.queues := by
  rw [h.remove_field]
  split
  · exact h.nodup.mem_erase_iff
  · next hr =>
    refine (and_iff_right_of_imp fun hq => ?_).symm
    rintro rfl
    exact hr hq

theorem Accounts.mem_queueCleanup {s : Queues} (h : Accounts s) (r q : ℕ) :
    q ∈ (s.queueCleanup r).qm.queues ↔ q ≠ r ∧ q ∈ s.qm.queues := h.mem_remove r q

theorem Accounts.mem_queueFree {s : Queues} (h : Accounts s) (r q : ℕ) :
    q ∈ (s.queueFree r).qm.queues ↔ q ≠ r ∧ q ∈ s.qm.queues := h.mem_remove r q

/-- Removing the handle of a resource, which the resource then has not got any more, or which is
then freed. -/
theorem Intact.removes {s s' : Queues} (h : Intact s) {r : ℕ} (hr : r < s.next)
    (hs : Removes s s' r) (hfreed : s.freed ⊆ s'.freed)
    (hgone : s'.field r = some r → r ∈ s'.freed) : Intact s' := by
  refine ⟨h.accounts.removes hr hs, fun q hq hfield hno => ?_⟩
  have hne : q ≠ r := by
    rintro rfl
    exact hno (hgone hfield)
  rw [hs.field q hne] at hfield
  rw [hs.qm, h.accounts.mem_remove, hs.cleared]
  exact (h.attached q (hs.next ▸ hq) hfield fun hmem => hno (hfreed hmem)).imp_left
    fun hmem => ⟨hne, hmem⟩

theorem Intact.queueCleanup {s : Queues} (h : Intact s) {r : ℕ} (hr : r < s.next) :
    Intact (s.queueCleanup r) := by
  refine h.removes hr (Accounts.queueCleanup_removes s r) (List.Subset.refl _) fun hfield => ?_
  have hnone : (s.queueCleanup r).field r = none := Function.update_self _ _ _
  rw [hnone] at hfield
  cases hfield

theorem Intact.queueFree {s : Queues} (h : Intact s) {r : ℕ} (hr : r < s.next) :
    Intact (s.queueFree r) :=
  h.removes hr (h.accounts.queueFree_removes r) (List.subset_cons_self _ _)
    fun _ => List.mem_cons_self

end Exrdkafka.Nif

namespace Exrdkafka.ConsumerGroup

open Nif Machine Directory Trace

namespace Member

variable {m : Member}

/-! ## The invariant -/

/-- The queues made for the group: those it has not been told of, and those of the consumers it has
decided to start. -/
def madeRefs (m : Member) : List Term :=
  m.mailbox.flatMap Mail.queueRefs ++ (startedIn m.group.history).map (·.2.queueRef)

/-- What holds of a member. -/
structure Sound (m : Member) : Prop where
  history : m.group.history = m.done ++ m.pending
  queues : Intact m.consumer.queues
  uncleared : m.consumer.running = true → m.consumer.queues.cleared = []
  made : ∀ t ∈ m.madeRefs, ∃ r < m.consumer.queues.next, t = .ref r
  once : m.madeRefs.Nodup
  /-- A resource has its handle until it is cleaned up. -/
  field : ∀ r, .ref r ∈ m.madeRefs → .queueCleanup (.ref r) ∉ m.done →
    m.consumer.queues.field r = some r
  /-- A queue that is cleaned up is forwarded back. -/
  cleaned : ∀ r ∈ m.consumer.queues.qm.queues, .queueCleanup (.ref r) ∉ m.done
  /-- Its resource has lost it. -/
  taken : ∀ r, .queueCleanup (.ref r) ∈ m.done → m.consumer.queues.field r = none
  held : ∀ r ∈ m.consumer.queues.freed, .ref r ∉ m.heldRefs
  orderly : Orderly m.group.history
  consistent : m.group.running = true → Consistent m.group
  gone : m.gone = true → m.group.running = false

theorem mem_heldRefs {t : Term} : t ∈ m.heldRefs ↔
    t ∈ m.live.map (·.2.queueRef) ∨ t ∈ m.pending.filterMap Effect.queueRef? ∨
      m.gone = false ∧ (t ∈ m.mailbox.flatMap Mail.queueRefs ∨
        t ∈ (values m.group.state.activeTopicsMap).map (·.queueRef)) := by
  rw [heldRefs, List.mem_append, List.mem_append, or_assoc]
  cases m.gone with
  | true => simp
  | false => simp

theorem mem_filterMap_queueRef? {es : List Effect} {t : Term} :
    t ∈ es.filterMap Effect.queueRef? ↔
      t ∈ (startedIn es).map (·.2.queueRef) ∨ .queueCleanup t ∈ es := by
  induction es with
  | nil => simp [startedIn]
  | cons e es ih =>
    rw [List.filterMap_cons]
    cases e <;> simp_all [Effect.queueRef?, startedIn, eq_comm, or_assoc, or_left_comm]

theorem sound_start (s : State) : (start s).Sound where
  history := rfl
  queues := intact_start
  uncleared _ := rfl
  made := nofun
  once := List.nodup_nil
  field := nofun
  cleaned := nofun
  taken := nofun
  held := nofun
  orderly := atEach_nil
  consistent _ := consistent_start s
  gone := nofun

/-- A queue that is cleaned up is one that was made. -/
theorem Sound.mem_madeRefs (h : m.Sound) {t : Term} (ht : .queueCleanup t ∈ m.group.history) :
    t ∈ m.madeRefs := by
  obtain ⟨pre, post, hsplit⟩ := List.append_of_mem ht
  obtain ⟨c, hc, rfl, -⟩ := h.orderly pre _ post hsplit t rfl
  rw [madeRefs, hsplit, startedIn_append, List.map_append]
  exact List.mem_append_right _ (List.mem_append_left _ (List.mem_map_of_mem hc))

theorem Sound.mem_madeRefs_of_done (h : m.Sound) {t : Term} (ht : .queueCleanup t ∈ m.done) :
    t ∈ m.madeRefs := by
  refine h.mem_madeRefs ?_
  rw [h.history]
  exact List.mem_append_left _ ht

/-! ## The callback -/

/-- A message without queues. -/
theorem Sound.post (h : m.Sound) {mail : Mail} (hmail : mail.queueRefs = []) :
    (m.post mail).Sound := by
  have hrefs : (m.post mail).mailbox.flatMap Mail.queueRefs = m.mailbox.flatMap Mail.queueRefs := by
    rw [Member.post]
    split <;> simp [hmail]
  have hmade : (m.post mail).madeRefs = m.madeRefs := by rw [madeRefs, hrefs]; rfl
  have hheld : (m.post mail).heldRefs = m.heldRefs := by rw [heldRefs, hrefs]; rfl
  exact { h with
    made := hmade ▸ h.made
    once := hmade ▸ h.once
    field := hmade ▸ h.field
    held := hheld ▸ h.held }

theorem Sound.grant (h : m.Sound) (grant : Grant) : { m with grant }.Sound := { h with }

/-- The resources with the numbers from `next` on. -/
def newRefs (next n : ℕ) : List Term := (List.range' next n).map Term.ref

theorem mem_newRefs {next n : ℕ} {t : Term} :
    t ∈ newRefs next n ↔ ∃ r, next ≤ r ∧ r < next + n ∧ t = .ref r := by
  simp only [newRefs, List.mem_map, List.mem_range'_1, and_assoc, eq_comm]

theorem newRefs_nodup (next n : ℕ) : (newRefs next n).Nodup :=
  List.Nodup.map (fun _ _ h => Term.ref.inj h) List.nodup_range'

/-- The mailbox with the new queues, unless the process has exited. -/
theorem queueRefs_assign (m : Member) (next : ℕ) (objs : List RdTopicPartition) :
    (m.post (.assignPartitions (assignedFrom next objs))).mailbox.flatMap Mail.queueRefs =
      m.mailbox.flatMap Mail.queueRefs ++ if m.gone then [] else newRefs next objs.length := by
  rw [Member.post]
  split
  · exact (List.append_nil _).symm
  · rw [List.flatMap_append, List.flatMap_singleton, Mail.queueRefs, assignedFrom_queueRefs]
    rfl

/-- New queues are made and handed over. -/
theorem Sound.assign (h : m.Sound) (hrun : m.consumer.running = true)
    (objs : List RdTopicPartition) :
    (Member.post
      { m with consumer := ⟨true, m.consumer.queues.newQueues objs.length⟩ }
      (.assignPartitions (assignedFrom m.consumer.queues.next objs))).Sound := by
  have hrefs := queueRefs_assign
    { m with consumer := ⟨true, m.consumer.queues.newQueues objs.length⟩ }
    m.consumer.queues.next objs
  set new := newRefs m.consumer.queues.next objs.length with hnew
  set m' := Member.post { m with consumer := ⟨true, m.consumer.queues.newQueues objs.length⟩ }
    (.assignPartitions (assignedFrom m.consumer.queues.next objs)) with hm'
  have hsub : (if m.gone then [] else new) ⊆ new := by
    split
    · exact List.nil_subset _
    · exact List.Subset.refl _
  have hmade : ∀ t ∈ m'.madeRefs, t ∈ m.madeRefs ∨ t ∈ new := by
    intro t ht
    rw [madeRefs, hrefs, List.append_assoc] at ht
    rcases List.mem_append.1 ht with ht | ht
    · exact .inl (List.mem_append_left _ ht)
    · rcases List.mem_append.1 ht with ht | ht
      · exact .inr (hsub ht)
      · exact .inl (List.mem_append_right _ ht)
  have hfresh : ∀ t ∈ new, t ∉ m.madeRefs := by
    intro t ht hold
    obtain ⟨r, hge, -, rfl⟩ := mem_newRefs.1 ht
    obtain ⟨r', hlt, heq⟩ := h.made _ hold
    obtain rfl := Term.ref.inj heq
    omega
  refine { h with
    queues := h.queues.newQueues _
    uncleared := fun _ => (Queues.cleared_newQueues _ _).trans (h.uncleared hrun)
    made := fun t ht => ?_
    once := ?_
    field := fun r hr hclean => ?_
    cleaned := fun r hr hclean => ?_
    taken := fun r hclean => ?_
    held := fun r hr hheld => ?_ }
  · show ∃ r < (m.consumer.queues.newQueues objs.length).next, t = .ref r
    rw [Queues.next_newQueues]
    rcases hmade t ht with ht | ht
    · obtain ⟨r, hr, rfl⟩ := h.made t ht
      exact ⟨r, by omega, rfl⟩
    · obtain ⟨r, -, hr, rfl⟩ := mem_newRefs.1 ht
      exact ⟨r, hr, rfl⟩
  · rw [madeRefs, hrefs]
    have hnodup : ((if m.gone then [] else new) ++ m.madeRefs).Nodup := by
      refine List.nodup_append'.2 ⟨?_, h.once, fun t ht => hfresh t (hsub ht)⟩
      split
      · exact List.nodup_nil
      · exact newRefs_nodup _ _
    rw [madeRefs, ← List.append_assoc] at hnodup
    exact (List.perm_append_comm.append_right _).nodup_iff.1 hnodup
  · show (m.consumer.queues.newQueues objs.length).field r = some r
    rw [Queues.field_newQueues]
    split_ifs with hrange
    · rfl
    · refine h.field r ((hmade _ hr).resolve_right fun hin => hrange ?_) hclean
      obtain ⟨r', hge, hlt, heq⟩ := mem_newRefs.1 hin
      obtain rfl := Term.ref.inj heq
      exact ⟨hge, hlt⟩
  · rcases (Queues.mem_queues_newQueues _ _ _).1 hr with hr | ⟨hge, hlt⟩
    · exact h.cleaned r hr hclean
    · exact hfresh _ (mem_newRefs.2 ⟨r, hge, hlt, rfl⟩) (h.mem_madeRefs_of_done hclean)
  · show (m.consumer.queues.newQueues objs.length).field r = none
    rw [Queues.field_newQueues, if_neg fun hrange => ?_]
    · exact h.taken r hclean
    · exact hfresh _ (mem_newRefs.2 ⟨r, hrange.1, hrange.2, rfl⟩) (h.mem_madeRefs_of_done hclean)
  · have hfreed : r ∈ m.consumer.queues.freed := (Queues.freed_newQueues _ _) ▸ hr
    refine h.held r hfreed (mem_heldRefs.2 ?_)
    refine (mem_heldRefs.1 hheld).imp_right (Or.imp_right fun ⟨hgone, hin⟩ => ⟨hgone, ?_⟩)
    refine hin.imp_left fun hin => ?_
    rw [hrefs, List.mem_append] at hin
    refine hin.resolve_right fun hin => ?_
    obtain ⟨r', hge, -, heq⟩ := mem_newRefs.1 (hsub hin)
    obtain rfl := Term.ref.inj heq
    exact absurd (h.queues.accounts.freed_lt r hfreed) (Nat.not_lt.2 hge)

theorem Sound.rebalance (h : m.Sound) {err : ℤ} {partitions : RdPartitionList} {response : ℤ}
    {m' : Member} (hm : m.rebalance err partitions response = some m') : m'.Sound := by
  cases hrun : m.consumer.running with
  | false =>
    rw [rebalance_stopped hrun] at hm
    exact Option.some.inj hm ▸ h.grant .unassigned
  | true =>
    by_cases herr : err = respErrAssignPartitions
    · subst herr
      rw [rebalance_assign hrun] at hm
      exact Option.some.inj hm ▸ (h.assign hrun (partitions.getD [])).grant _
    · rw [rebalance_revoke hrun herr] at hm
      exact Option.some.inj hm ▸ (h.grant _).post rfl

/-! ## The group -/

/-- The group has decided what to do. -/
theorem Sound.handled (h : m.Sound) (hrun : m.group.running = true) (hpending : m.pending = [])
    {info : Info} {r : GenServer.Handled State (List Term) Effect} (hr : Handles m.group info r)
    {rest : List Mail}
    (hmail : m.mailbox.flatMap Mail.queueRefs = info.queueRefs ++ rest.flatMap Mail.queueRefs)
    (hcons : (m.group.handled r).running = true → Consistent (m.group.handled r)) :
    ({ m with mailbox := rest }.handled r).Sound := by
  have hdone : m.group.history = m.done := by
    rw [h.history, hpending, List.append_nil]
  have hhistory := handled_history m.group r
  have hnext : ({ m with mailbox := rest }.handled r).pending = m.group.effects r := by
    show (m.group.handled r).history.drop m.group.history.length = _
    rw [hhistory, List.drop_left]
  have hstarted := startedIn_effects hr
  set old := (startedIn m.group.history).map (·.2.queueRef) with hold
  have hmade : ({ m with mailbox := rest }.handled r).madeRefs = rest.flatMap Mail.queueRefs ++
      (old ++ (startedIn (m.group.effects r)).map (·.2.queueRef)) := by
    show rest.flatMap Mail.queueRefs ++
      (startedIn (m.group.handled r).history).map (·.2.queueRef) = _
    rw [hhistory, startedIn_append, List.map_append]
  have hperm : (info.queueRefs ++ rest.flatMap Mail.queueRefs ++ old).Perm
      (rest.flatMap Mail.queueRefs ++ (old ++ info.queueRefs)) := by
    rw [List.append_assoc, ← List.append_assoc (rest.flatMap Mail.queueRefs)]
    exact List.perm_append_comm
  have hsublist : ({ m with mailbox := rest }.handled r).madeRefs.Sublist
      (rest.flatMap Mail.queueRefs ++ (old ++ info.queueRefs)) := by
    rw [hmade]
    exact (List.Sublist.refl _).append ((List.Sublist.refl _).append hstarted)
  have hsub : ({ m with mailbox := rest }.handled r).madeRefs ⊆ m.madeRefs := by
    intro t ht
    have hin := hperm.mem_iff.2 (hsublist.subset ht)
    rwa [← hmail] at hin
  have hnodup := h.once
  rw [madeRefs, hmail] at hnodup
  refine { h with
    history := ?_
    made := fun t ht => h.made t (hsub ht)
    once := (hperm.nodup_iff.1 hnodup).sublist hsublist
    field := fun r hr => h.field r (hsub hr)
    held := fun q hq hheld => h.held q hq ?_
    orderly := ?_
    consistent := hcons
    gone := fun hgone => by rw [h.gone hgone] at hrun; cases hrun }
  · show (m.group.handled r).history = m.done ++ _
    rw [hnext, hhistory, hdone]
  · -- the queues handed over go from the mailbox to the effects, and on into the map
    have hgone : m.gone = false := by
      by_contra hgone
      rw [h.gone (Bool.of_not_eq_false hgone)] at hrun
      cases hrun
    have hnew : ∀ t ∈ (startedIn (m.group.effects r)).map (·.2.queueRef), t ∈ m.heldRefs := by
      intro t ht
      refine mem_heldRefs.2 (.inr (.inr ⟨hgone, .inl ?_⟩))
      rw [hmail]
      exact List.mem_append_left _ (hstarted.subset ht)
    rcases mem_heldRefs.1 hheld with hin | hin | ⟨-, hin | hin⟩
    · exact mem_heldRefs.2 (.inl hin)
    · rw [hnext, mem_filterMap_queueRef?] at hin
      rcases hin with hin | hin
      · exact hnew _ hin
      · exact mem_heldRefs.2 (.inr (.inr ⟨hgone, .inr ((tidy_effects hr).mem_values hin)⟩))
    · refine mem_heldRefs.2 (.inr (.inr ⟨hgone, .inl ?_⟩))
      rw [hmail]
      exact List.mem_append_right _ hin
    · obtain ⟨entry, hentry, heq⟩ := List.mem_map.1 hin
      rcases values_handled hr hentry with hold | ⟨tp, htp⟩
      · exact mem_heldRefs.2 (.inr (.inr ⟨hgone, .inr (List.mem_map.2 ⟨entry, hold, heq⟩)⟩))
      · exact hnew _ (List.mem_map.2 ⟨(tp, entry), htp, heq⟩)
  · show Orderly (m.group.handled r).history
    rw [hhistory]
    exact h.orderly.append (tidy_effects hr) (h.consistent hrun).entries

/-- The queues of a message are new to the group. -/
theorem Sound.newQueues (h : m.Sound) {info : Info} {rest : List Mail}
    (hmail : m.mailbox.flatMap Mail.queueRefs = info.queueRefs ++ rest.flatMap Mail.queueRefs) :
    m.group.newQueues info = true := by
  have honce := h.once
  rw [madeRefs, hmail, List.append_assoc, List.nodup_append'] at honce
  obtain ⟨hnodup, -, hdisjoint⟩ := honce
  cases info with
  | assignPartitions ps =>
    simp only [World.newQueues, Bool.and_eq_true, decide_eq_true_eq, List.all_eq_true, bne_iff_ne]
    refine ⟨hnodup, fun p hp c hc heq => hdisjoint (List.mem_map_of_mem hp) ?_⟩
    exact List.mem_append_right _ (List.mem_map.2 ⟨c, hc, heq⟩)
  | _ => rfl

/-- The message hands over the queues that are in it. -/
theorem queueRefs_of_answered {mail : Mail} {answers : List Consumer.InitAnswer} {info : Info}
    (h : mail.answered answers = some info) : info.queueRefs = mail.queueRefs := by
  cases mail with
  | assignPartitions ps =>
    simp only [Mail.answered] at h
    split_ifs at h with hlength
    obtain rfl := Option.some.inj h
    have hzip : (ps.zip answers).map Prod.fst = ps := List.map_fst_zip (by omega)
    conv_rhs => rw [Mail.queueRefs, ← hzip, List.map_map]
    rfl
  | _ => exact Option.some.inj h ▸ rfl

/-- What an effect changes. -/
theorem perform_cases (m : Member) (e : Effect) : ∃ grant running queues,
    m.perform e = { m with grant, consumer := ⟨running, queues⟩ } ∧
      (grant = m.grant ∧ e ≠ .partitionRevokeCompleted ∨
        grant = .unassigned ∧ e = .partitionRevokeCompleted) ∧
      (running = m.consumer.running ∧ e ≠ .consumerCleanup ∨
        running = false ∧ e = .consumerCleanup) ∧
      ((∃ r, e = .queueCleanup (.ref r) ∧ queues = m.consumer.queues.queueCleanup r) ∨
        (∀ r, e ≠ .queueCleanup (.ref r)) ∧ queues = m.consumer.queues) := by
  unfold perform
  split
  · next r => exact ⟨_, _, _, rfl, .inl ⟨rfl, nofun⟩, .inl ⟨rfl, nofun⟩, .inl ⟨r, rfl, rfl⟩⟩
  · exact ⟨_, _, _, rfl, .inr ⟨rfl, rfl⟩, .inl ⟨rfl, nofun⟩, .inr ⟨nofun, rfl⟩⟩
  · exact ⟨_, _, _, rfl, .inl ⟨rfl, nofun⟩, .inr ⟨rfl, rfl⟩, .inr ⟨nofun, rfl⟩⟩
  · next hclean hcomplete hclose =>
    exact ⟨_, _, _, rfl, .inl ⟨rfl, hcomplete⟩, .inl ⟨rfl, hclose⟩, .inr ⟨hclean, rfl⟩⟩

theorem mem_live {c : TopicPartition × Entry} :
    c ∈ m.live ↔ c ∈ startedIn m.done ∧ (c.2.pid ∉ stoppedIn m.done ∨ c.2.pid ∈ m.killed) ∧
      c.2.pid ∉ m.ended := by
  simp only [live, active, lingering, List.mem_append, List.mem_filter, mem_liveIn,
    decide_eq_true_eq]
  tauto

section Effect

variable {e : Effect} {rest : List Effect} {killed : List Pid}

theorem live_performed (m : Member) (e : Effect) (rest : List Effect) (killed : List Pid) :
    (m.performed e rest killed).live =
      { m with done := m.done ++ [e], killed }.live := by
  obtain ⟨grant, running, queues, hperform, -⟩ := perform_cases m e
  rw [performed, hperform]
  rfl

/-- A consumer that runs after an effect ran before, or has just been started. -/
theorem mem_live_performed (hkilled : ∀ pid ∈ killed, pid ∈ m.killed ∨ pid ∈ m.live.map (·.2.pid))
    {c : TopicPartition × Entry} (hc : c ∈ (m.performed e rest killed).live) :
    c ∈ m.live ∨ e = .started c.1 c.2 := by
  rw [live_performed] at hc
  obtain ⟨hstarted, hstopped, hended⟩ := mem_live.1 hc
  rw [startedIn_append, List.mem_append] at hstarted
  rw [stoppedIn_append, List.mem_append, not_or] at hstopped
  rcases hstarted with hstarted | hstarted
  · left
    rcases hstopped with ⟨hstopped, -⟩ | hin
    · exact mem_live.2 ⟨hstarted, .inl hstopped, hended⟩
    · rcases hkilled _ hin with hin | hin
      · exact mem_live.2 ⟨hstarted, .inr hin, hended⟩
      · -- whether a consumer runs depends on its process only
        obtain ⟨d, hd, hpid⟩ := List.mem_map.1 hin
        obtain ⟨-, hstopped, -⟩ := mem_live.1 hd
        rw [hpid] at hstopped
        exact mem_live.2 ⟨hstarted, hstopped, hended⟩
  · right
    cases e <;> simp_all [startedIn]

/-- The group performs an effect. -/
theorem Sound.performed (h : m.Sound) (hpending : m.pending = e :: rest)
    (hkilled : ∀ pid ∈ killed, pid ∈ m.killed ∨ pid ∈ m.live.map (·.2.pid)) :
    (m.performed e rest killed).Sound := by
  have hlive : ∀ c ∈ (m.performed e rest killed).live, c.2.queueRef ∈ m.heldRefs := by
    intro c hc
    rw [mem_heldRefs]
    rcases mem_live_performed hkilled hc with hold | rfl
    · exact .inl (List.mem_map_of_mem hold)
    · rw [hpending]
      exact .inr (.inl List.mem_cons_self)
  have hrest : ∀ t ∈ rest.filterMap Effect.queueRef?, t ∈ m.heldRefs := by
    intro t ht
    obtain ⟨e', he', ht⟩ := List.mem_filterMap.1 ht
    refine mem_heldRefs.2 (.inr (.inl (List.mem_filterMap.2 ⟨e', ?_, ht⟩)))
    rw [hpending]
    exact List.mem_cons_of_mem e he'
  obtain ⟨grant, running, queues, hperform, -, hrunning, hqueues⟩ := perform_cases m e
  have huncleared : running = true → m.consumer.queues.cleared = [] := by
    rintro rfl
    rcases hrunning with ⟨hrun, -⟩ | ⟨hrun, -⟩
    · exact h.uncleared hrun.symm
    · cases hrun
  rw [Member.performed, hperform] at hlive ⊢
  have hheld : ∀ t ∈ heldRefs { m with
      grant, consumer := ⟨running, queues⟩, done := m.done ++ [e], pending := rest, killed },
      t ∈ m.heldRefs := by
    intro t ht
    rcases mem_heldRefs.1 ht with hin | hin | hin
    · obtain ⟨c, hc, rfl⟩ := List.mem_map.1 hin
      exact hlive c hc
    · exact hrest t hin
    · exact mem_heldRefs.2 (.inr (.inr hin))
  have hhistory : m.group.history = (m.done ++ [e]) ++ rest := by
    rw [h.history, hpending, List.append_assoc]
    rfl
  rcases hqueues with ⟨r, rfl, rfl⟩ | ⟨hno, rfl⟩
  · have hmade : .ref r ∈ m.madeRefs := h.mem_madeRefs (by rw [hhistory]; simp)
    obtain ⟨r', hr, heq⟩ := h.made _ hmade
    obtain rfl := Term.ref.inj heq
    refine { h with
      history := hhistory
      queues := h.queues.queueCleanup hr
      uncleared := huncleared
      field := fun q hq hclean => ?_
      cleaned := fun q hq hclean => ?_
      taken := fun q hclean => ?_
      held := fun q hq hin => h.held q hq (hheld _ hin) }
    · have hne : q ≠ r := by
        rintro rfl
        exact hclean (List.mem_append_right _ List.mem_cons_self)
      exact (Function.update_of_ne hne _ _).trans
        (h.field q hq fun hin => hclean (List.mem_append_left _ hin))
    · obtain ⟨hne, hq⟩ := (h.queues.accounts.mem_queueCleanup r q).1 hq
      rcases List.mem_append.1 hclean with hclean | hclean
      · exact h.cleaned q hq hclean
      · obtain ⟨⟩ := List.mem_singleton.1 hclean
        exact hne rfl
    · by_cases hne : q = r
      · exact hne ▸ Function.update_self ..
      · refine (Function.update_of_ne hne _ _).trans (h.taken q ?_)
        refine (List.mem_append.1 hclean).resolve_right fun hin => hne ?_
        exact Term.ref.inj (Effect.queueCleanup.inj (List.mem_singleton.1 hin))
  · exact { h with
      history := hhistory
      uncleared := huncleared
      field := fun q hq hclean => h.field q hq fun hin => hclean (List.mem_append_left _ hin)
      cleaned := fun q hq hclean => by
        rcases List.mem_append.1 hclean with hclean | hclean
        · exact h.cleaned q hq hclean
        · exact hno q (List.mem_singleton.1 hclean).symm
      taken := fun q hclean => h.taken q ((List.mem_append.1 hclean).resolve_right fun hin =>
        hno q (List.mem_singleton.1 hin).symm)
      held := fun q hq hin => h.held q hq (hheld _ hin) }

end Effect

/-- **One step keeps a member sound.** -/
theorem Sound.step (h : m.Sound) (e : MemberEvent) {m' : Member} (hm : m.step e = some m') :
    m'.Sound := by
  cases e with
  | rebalance err partitions response => exact h.rebalance hm
  | arrive mail =>
    simp only [Member.step] at hm
    split_ifs at hm with hmail
    obtain ⟨hmail, hgone⟩ := not_or.1 hmail
    have hrefs : mail.queueRefs = [] := by cases mail <;> first | rfl | exact absurd rfl hmail
    have hpost := h.post hrefs
    rw [Member.post, if_neg hgone] at hpost
    exact Option.some.inj hm ▸ hpost
  | handle answers =>
    simp only [Member.step] at hm
    split at hm
    · cases hm
    · next mail rest hmailbox =>
      split_ifs at hm with hready
      obtain ⟨info, hinfo, rfl⟩ := Option.map_eq_some_iff.1 hm
      have hmail : m.mailbox.flatMap Mail.queueRefs =
          info.queueRefs ++ rest.flatMap Mail.queueRefs := by
        rw [hmailbox, List.flatMap_cons, queueRefs_of_answered hinfo]
      refine h.handled hready.1 hready.2 (handles m.group info) hmail fun hrun => ?_
      refine (h.consistent hready.1).step (m := info) ?_ hrun
      rw [ConsumerGroup.step, hready.1, h.newQueues hmail]
      rfl
  | shutdown =>
    simp only [Member.step] at hm
    split_ifs at hm with hready
    exact Option.some.inj hm ▸ h.handled hready.1 hready.2 (.exit 0 .nil) rfl fun hrun =>
      absurd hrun Bool.false_ne_true
  | effect =>
    simp only [Member.step] at hm
    split at hm
    · cases hm
    · next e rest hpending =>
      exact Option.some.inj hm ▸ h.performed hpending fun pid hpid =>
        .inl (List.mem_filter.1 hpid).1
  | timeout =>
    simp only [Member.step] at hm
    split at hm
    · next pid rest hpending =>
      split_ifs at hm with hpid
      refine Option.some.inj hm ▸ h.performed hpending fun pid' hpid' => ?_
      rcases List.mem_cons.1 hpid' with rfl | hold
      · exact .inr hpid
      · exact .inl hold
    · cases hm
  | die pid =>
    simp only [Member.step] at hm
    split_ifs at hm
    obtain rfl := Option.some.inj hm
    refine { h with held := fun r hr hheld => h.held r hr (mem_heldRefs.2 ?_) }
    refine (mem_heldRefs.1 hheld).imp_left fun hin => ?_
    obtain ⟨c, hc, heq⟩ := List.mem_map.1 hin
    obtain ⟨hstarted, hstopped, hended⟩ := mem_live.1 hc
    have hnot : c.2.pid ∉ m.ended := fun hin => hended (List.mem_append_left _ hin)
    exact List.mem_map.2 ⟨c, mem_live.2 ⟨hstarted, hstopped, hnot⟩, heq⟩
  | clearAll =>
    simp only [Member.step] at hm
    split_ifs at hm with hrun
    obtain rfl := Option.some.inj hm
    exact { h with
      queues := h.queues.clearAll
      uncleared := fun htrue => absurd htrue hrun
      cleaned := List.forall_mem_nil _ }
  | exit =>
    simp only [Member.step] at hm
    split_ifs at hm with hexit
    obtain rfl := Option.some.inj hm
    have hsub : (startedIn m.group.history).map (·.2.queueRef) ⊆ m.madeRefs :=
      List.subset_append_right _ _
    refine { h with
      made := fun t ht => h.made t (hsub ht)
      once := (List.nodup_append'.1 h.once).2.1
      field := fun r hr => h.field r (hsub hr)
      held := fun r hr hheld => h.held r hr (mem_heldRefs.2 ?_)
      gone := fun _ => hexit.1 }
    refine (mem_heldRefs.1 hheld).imp_right (Or.imp_right fun hin => ?_)
    cases hin.1
  | free r =>
    simp only [Member.step] at hm
    split_ifs at hm with hfree
    obtain ⟨hr, hfreed, hheld⟩ := hfree
    obtain rfl := Option.some.inj hm
    refine { h with
      queues := h.queues.queueFree hr
      cleaned := fun q hq => h.cleaned q ((h.queues.accounts.mem_queueFree r q).1 hq).2
      taken := h.taken
      held := fun q hq => ?_ }
    rcases List.mem_cons.1 hq with rfl | hq
    · exact hheld
    · exact h.held q hq

/-! ## The consumers -/

/-- **What a consumer has.** -/
structure Holds (m : Member) (c : TopicPartition × Entry) (r : ℕ) : Prop where
  queueRef : c.2.queueRef = .ref r
  /-- The resource has not been freed. -/
  unfreed : r ∉ m.consumer.queues.freed
  /-- No other consumer has the queue. -/
  own : ∀ d ∈ m.live, d.2.queueRef = .ref r → d = c

/-- **What a consumer polls.** -/
structure Polls (m : Member) (c : TopicPartition × Entry) (r : ℕ) : Prop extends Holds m c r where
  /-- The handle of the resource has not been taken out, -/
  field : m.consumer.queues.field r = some r
  /-- nor destroyed. -/
  handle : .destroy r ∉ m.consumer.queues.qm.calls
  /-- Until the client is closed, the queue is not forwarded to the main queue. -/
  attached : m.consumer.running = true → r ∈ m.consumer.queues.qm.queues

/-- Two consumers that were started have different queues. -/
theorem Sound.eq_of_queue (h : m.Sound) {c d : TopicPartition × Entry}
    (hc : c ∈ startedIn m.group.history) (hd : d ∈ startedIn m.group.history)
    (heq : c.2.queueRef = d.2.queueRef) : c = d :=
  List.inj_on_of_nodup_map (List.nodup_append'.1 h.once).2.1 hc hd heq

theorem Sound.started (h : m.Sound) {c : TopicPartition × Entry} (hc : c ∈ startedIn m.done) :
    c ∈ startedIn m.group.history := by
  rw [h.history, startedIn_append]
  exact List.mem_append_left _ hc

/-- The queue of a consumer that has not been stopped has not been cleaned up. -/
theorem Sound.not_cleaned (h : m.Sound) {c : TopicPartition × Entry} (hc : c ∈ m.active) :
    .queueCleanup c.2.queueRef ∉ m.done := by
  obtain ⟨hstarted, hstopped⟩ := mem_liveIn.1 (List.mem_filter.1 hc).1
  intro hclean
  obtain ⟨pre, post, hsplit⟩ := List.append_of_mem hclean
  have hhistory : m.group.history = pre ++ .queueCleanup c.2.queueRef :: (post ++ m.pending) := by
    rw [h.history, hsplit, List.append_assoc, List.cons_append]
  obtain ⟨d, hd, hqueue, hstop⟩ := h.orderly pre _ _ hhistory _ rfl
  have hpre : d ∈ startedIn m.group.history := by
    rw [hhistory, startedIn_append]
    exact List.mem_append_left _ hd
  obtain rfl := h.eq_of_queue hpre (h.started hstarted) hqueue
  refine hstopped ?_
  rw [hsplit, stoppedIn_append]
  exact List.mem_append_left _ hstop

end Member

end Exrdkafka.ConsumerGroup
