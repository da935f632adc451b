import Exrdkafka.Nif.ClientMemory

/-!
# The end of a cleanup

A cleanup returns at once, and its thread sends `client_stopped` when it is through. The process
that has asked for it waits for this message, a producer for ever.

`Talk` is what the calls of a client have said so far. In `Speaks`, a client speaks out of turn
nowhere: it sends the message once, after the cleanup, and what the thread still has to say is the
last of its calls.

* `Speaks.create`, `Speaks.step` and `Speaks.cleanup`: the calls keep it.
* `Speaks.exists_told`: a client that is asked to stop can still send the message.
-/

namespace Exrdkafka.Nif.Owned

open EarlyReturn Machine Scoped Term

variable {κ τ : Type}

/-! ## The messages of a client -/

/-- Whether a client has been cleaned up, and has sent `client_stopped`. -/
inductive Talk where
  | idle
  /-- the future `n` has been started -/
  | asked (n : ℕ)
  | told (n : ℕ)
  deriving DecidableEq

/-- A second cleanup, or a message that nobody waits for, is out of turn. -/
def Talk.step (t : Talk) : Call → Option Talk
  | .newFuture n =>
    match t with
    | .idle => some (.asked n)
    | _ => none
  | .sendStopped =>
    match t with
    | .asked n => some (.told n)
    | _ => none
  | _ => some t

/-- A call that is neither a cleanup nor a message. -/
def Silent (c : Call) : Prop := ∀ t : Talk, t.step c = some t

theorem run_silent {cs : List Call} (h : ∀ c ∈ cs, Silent c) (t : Talk) :
    run Talk.step t cs = some t := by
  induction cs with
  | nil => rfl
  | cons c cs ih =>
    rw [run_cons, h c (by simp) t, Option.bind_some]
    exact ih fun d hd => h d (by simp [hd])

/-- A creation sends nothing. -/
theorem silent_enifProducerNew (lib : Librdkafka κ τ) (hasDrCallback config : Term)
    (r : NewReplies) : ∀ c ∈ (enifProducerNew lib hasDrCallback config r).2, Silent c := by
  refine Makes.finish (Makes.orReturn fun hasDrCallback => ?_)
  refine .call (fun _ => rfl) (.scopedPtr (fun _ => rfl) (.call (fun _ => rfl) ?_))
  refine Makes.orElse fun _ => .call (fun _ => rfl) (.call (fun _ => rfl) ?_)
  refine Makes.calls (fun c hc => ?_) (.call (fun _ => rfl) (.returnIf ?_))
  · cases hasDrCallback with
    | true => exact List.mem_singleton.1 hc ▸ fun _ => rfl
    | false => cases hc
  refine .scopedPtr (fun _ => rfl) (.call (fun _ => rfl) (.call (fun _ => rfl) ?_))
  refine Makes.orElse fun _ => .scopedPtr (fun _ => rfl) (.release (.call (fun _ => rfl) ?_))
  refine .release (.call (fun _ => rfl) (.call (fun _ => rfl) (.call (fun _ => rfl) ?_)))
  exact .release (.pure _)

theorem silent_addTopics (elems : List Term) : Makes Silent (addTopics elems) := by
  induction elems with
  | nil => exact .pure ()
  | cons head rest ih => exact .orReturn fun name => .call (fun _ => rfl) ih

theorem silent_topicSubscribe (list : Term) :
    ∀ c ∈ (Scoped.finish (topicSubscribe list)).2, Silent c := by
  refine Makes.finish (Makes.orReturn fun elems => .returnIf (.call (fun _ => rfl) ?_))
  exact .scopedPtr (fun _ => rfl) ((silent_addTopics elems).bind fun _ => .release (.pure true))

theorem silent_enifConsumerNew (lib : Librdkafka κ τ) (a : ConsumerArgs) (r : NewReplies) :
    ∀ c ∈ (enifConsumerNew lib a r).2, Silent c := by
  refine Makes.finish (.returnIf (.orReturn fun groupId => ?_))
  refine .call (fun _ => rfl) (.scopedPtr (fun _ => rfl) (.call (fun _ => rfl) ?_))
  refine .scopedPtr (fun _ => rfl) (.call (fun _ => rfl) (.orElse fun conf => ?_))
  refine .call (fun _ => rfl) (.orElse fun _ => .call (fun _ => rfl) (.orElse fun _ => ?_))
  refine .call (fun _ => rfl) (.returnIf (.scopedPtr (fun _ => rfl) (.call (fun _ => rfl) ?_)))
  refine .release (.call (fun _ => rfl) (.call (fun _ => rfl) (.call (fun _ => rfl) ?_)))
  refine .call (fun _ => rfl) (.call (fun _ => rfl) (.orElse fun _ => ?_))
  refine .scopedPtr (fun _ => rfl) (.release (.call (fun _ => rfl) ?_))
  refine .calls (silent_topicSubscribe a.topics) (.returnIf (.scopedPtr (fun _ => rfl) ?_))
  refine .call (fun _ => rfl) (.returnIf (.release (.call (fun _ => rfl) ?_)))
  exact .call (fun _ => rfl) (.call (fun _ => rfl) (.pure _))

theorem silent_addTopicCalls (m : TopicManager) (name : List UInt8) (n : ℕ)
    (withConf succeeds : Bool) : ∀ c ∈ addTopicCalls m name n withConf succeeds, Silent c := by
  intro c hc
  unfold addTopicCalls at hc
  split at hc
  · cases hc
  · exact List.mem_singleton.1 hc ▸ fun _ => rfl

theorem silent_enifProducerTopicNew (lib : Librdkafka κ τ) (m : TopicManager)
    (clientRef topicName config : Term) (n : ℕ) (succeeds : Bool) :
    ∀ c ∈ (enifProducerTopicNew lib m clientRef topicName config n succeeds).2, Silent c := by
  refine Makes.finish (.orReturn fun _ => .orReturn fun name => .call (fun _ => rfl) ?_)
  refine .scopedPtr (fun _ => rfl) (.call (fun _ => rfl) (.orElse fun _ => ?_))
  exact .calls (silent_addTopicCalls m name n true succeeds) (.returnIf (.release (.pure _)))

/-! ## The cleanup and its thread -/

/-- What a client has said, by its future and the calls that the thread has left. -/
def Resource.talk (i : Resource) : Talk :=
  match i.closedFuture with
  | none => .idle
  | some n => if .sendStopped ∈ i.threads n then .asked n else .told n

/-- What can be said next, without another cleanup. -/
def Talk.GoesOn (t t' : Talk) : Prop := t' = t ∨ ∃ n, t = .asked n ∧ t' = .told n

theorem Talk.GoesOn.idle_iff {t t' : Talk} (h : t.GoesOn t') : t' = .idle ↔ t = .idle := by
  rcases h with rfl | ⟨n, rfl, rfl⟩
  · rfl
  · simp

/-- **A client speaks in turn.** So far, it has said `t`. -/
structure Speaks (s : Life) (t : Talk) : Prop where
  run : run Talk.step .idle s.calls = some t
  /-- What has not been said is up to the thread. -/
  talk : ∀ i, s.res = some i → t = i.talk
  /-- A client that has been freed has told whoever asked. -/
  freed : s.res = none → ∀ n, t ≠ .asked n

theorem speaks_start : Speaks .start .idle where
  run := rfl
  talk i hi := by cases hi
  freed _ n h := by cases h

section Thread

variable {s : Life} {i : Resource} {next : ℕ} {t : Talk}

theorem Resource.talk_of_future {n : ℕ} (h : i.closedFuture = some n) :
    i.talk = if .sendStopped ∈ i.threads n then .asked n else .told n := by
  rw [talk, h]

/-- A call of the thread. -/
theorem Resource.Sound.talk_perform (h : i.Sound next) {n : ℕ} {c : Call} {rest : List Call}
    (hn : i.threads n = c :: rest) : i.talk.step c = some (i.perform n c rest).talk ∧
      i.talk.GoesOn (i.perform n c rest).talk := by
  have hfuture := h.idle n (by simp [hn])
  have hrest : (i.perform n c rest).threads n = rest := Function.update_self ..
  rw [Resource.talk_of_future hfuture, Resource.talk_of_future (i := i.perform n c rest) hfuture,
    hrest, hn]
  have hsuffix := (h.thread n hfuture).2.1
  rw [hn, Resource.cleanup] at hsuffix
  cases hconsumer : i.isConsumer with
  | false =>
    rw [hconsumer, if_neg Bool.false_ne_true] at hsuffix
    rcases suffix_cleanupProducer hsuffix with ⟨rfl, rfl⟩ | ⟨rfl, rfl⟩
    · exact ⟨rfl, .inl rfl⟩
    · exact ⟨rfl, .inr ⟨n, rfl, rfl⟩⟩
  | true =>
    rw [hconsumer, if_pos rfl] at hsuffix
    rcases suffix_cleanupConsumer hsuffix with
      ⟨rfl, rfl⟩ | ⟨rfl, rfl⟩ | ⟨rfl, rfl⟩ | ⟨rfl, rfl⟩
    · exact ⟨rfl, .inl rfl⟩
    · exact ⟨rfl, .inl rfl⟩
    · exact ⟨rfl, .inl rfl⟩
    · exact ⟨rfl, .inr ⟨n, rfl, rfl⟩⟩

/-- A thread that makes all its calls has sent the message. -/
theorem Resource.Sound.talk_thread (h : i.Sound next) {n : ℕ} (hn : i.closedFuture = some n) :
    Machine.run Talk.step i.talk (i.threads n) = some (.told n) := by
  obtain ⟨l, hl⟩ : ∃ l, i.threads n = l := ⟨_, rfl⟩
  rw [hl]
  induction l generalizing i with
  | nil =>
    rw [Resource.talk_of_future hn, hl]
    rfl
  | cons c rest ih =>
    have hrest : (i.perform n c rest).threads n = rest := Function.update_self ..
    rw [run_cons, (h.talk_perform hl).1, Option.bind_some]
    exact ih (h.perform hl) hn hrest

/-- The beginning of the destructor. -/
theorem Resource.Sound.talk_stop (h : i.Sound next) {cleanup : List Call}
    (hcleanup : ∀ c ∈ cleanup, Silent c) :
    ∃ t, Machine.run Talk.step i.talk (i.stop cleanup) = some t ∧ i.talk.GoesOn t ∧
      ∀ n, t ≠ .asked n := by
  rw [stop]
  cases hfuture : i.closedFuture with
  | some n =>
    refine ⟨.told n, ?_, ?_, by simp⟩
    · exact run_append_some (h.talk_thread hfuture) rfl
    · rw [Resource.talk_of_future hfuture]
      split
      · exact .inr ⟨n, rfl, rfl⟩
      · exact .inl rfl
  | none =>
    have hidle : i.talk = .idle := by rw [talk, hfuture]
    refine ⟨.idle, ?_, .inl hidle.symm, by simp⟩
    rw [hidle]
    refine run_silent (fun c hc => ?_) _
    dsimp only at hc
    split at hc
    · rcases List.mem_cons.1 hc with rfl | hc
      · exact fun _ => rfl
      · exact hcleanup c hc
    · cases hc

/-- The destructor. -/
theorem Resource.Sound.talk_free (h : i.Sound next) :
    ∃ t, Machine.run Talk.step i.talk (i.free ++ [.releaseResource]) = some t ∧
      i.talk.GoesOn t ∧ ∀ n, t ≠ .asked n := by
  have hproducer : ∀ c ∈ cleanupProducer false, Silent c := by
    intro c hc
    exact List.mem_singleton.1 hc ▸ fun _ => rfl
  have hconsumer : ∀ c ∈ cleanupConsumer false, Silent c := by
    intro c hc
    simp only [cleanupConsumer, Bool.false_eq_true, if_false, List.append_nil, List.mem_cons,
      List.not_mem_nil, or_false] at hc
    rcases hc with rfl | rfl | rfl <;> exact fun _ => rfl
  rw [free]
  split
  · obtain ⟨t, ht, hgoes, htold⟩ := h.talk_stop hconsumer
    refine ⟨t, run_append_some (run_append_some ht (run_silent (fun c hc => ?_) t)) rfl, hgoes,
      htold⟩
    split at hc
    · exact List.mem_singleton.1 hc ▸ fun _ => rfl
    · cases hc
  · obtain ⟨t, ht, hgoes, htold⟩ := h.talk_stop hproducer
    refine ⟨t, run_append_some (run_append_some (run_append_some ht (run_silent (fun c hc => ?_) t))
      (run_silent (fun c hc => ?_) t)) rfl, hgoes, htold⟩
    · split at hc
      · rcases List.mem_append.1 hc with hc | hc
        · obtain ⟨n, -, rfl⟩ := List.mem_map.1 hc
          exact fun _ => rfl
        · exact List.mem_singleton.1 hc ▸ fun _ => rfl
      · cases hc
    · split at hc
      · exact List.mem_singleton.1 hc ▸ fun _ => rfl
      · cases hc

end Thread

/-! ## Steps -/

section Steps

variable {s s' : Life} {i : Resource} {t : Talk}

/-- Calls are made, which say `t'`. -/
theorem Speaks.make (h : Speaks s t) {res : Option Resource} {cs : List Call} {t' : Talk}
    (hrun : Machine.run Talk.step t cs = some t') (htalk : ∀ i, res = some i → t' = i.talk)
    (hfreed : res = none → ∀ n, t' ≠ .asked n) : Speaks (s.make res cs) t' :=
  ⟨run_append_some h.run hrun, htalk, hfreed⟩

theorem Speaks.withNext (h : Speaks s t) (next : ℕ) : Speaks { s with next } t :=
  ⟨h.run, h.talk, h.freed⟩

/-- Calls that say nothing. -/
theorem Speaks.silent (h : Speaks s t) (hres : s.res = some i) {i' : Resource} {cs : List Call}
    (hcs : ∀ c ∈ cs, Silent c) (hi' : i'.talk = i.talk) : Speaks (s.make (some i') cs) t := by
  refine h.make (run_silent hcs t) (fun j hj => ?_) (by simp)
  rw [← Option.some.inj hj, hi']
  exact h.talk i hres

/-- A client has been created, or not. -/
theorem Speaks.create (h : Speaks s .idle) {new : NewResult × List Call}
    (hcalls : ∀ c ∈ new.2, Silent c)
    (hnew : ∀ i, new.1.2 = some i → i.closedFuture = none) :
    Speaks (s.make new.1.2 new.2) .idle := by
  refine h.make (run_silent hcalls _) (fun i hi => ?_) (by simp)
  rw [Resource.talk, hnew i hi]

/-- A first cleanup. -/
theorem Speaks.cleanup (h : Speaks s t) (hres : s.res = some i) (hfuture : i.closedFuture = none) :
    Speaks (s.cleanup i) (.asked s.next) := by
  obtain rfl : t = .idle := by rw [h.talk i hres, Resource.talk, hfuture]
  have hrun : Machine.run Talk.step .idle
      ((if i.kf then [.unwatch] else []) ++ [.newFuture s.next]) = some (.asked s.next) := by
    cases i.kf <;> rfl
  refine ⟨run_append_some h.run hrun, fun j hj => ?_, fun hnone => by cases hnone⟩
  obtain rfl := Option.some.inj hj
  rw [Resource.talk_of_future rfl]
  refine (if_pos ?_).symm
  show .sendStopped ∈ Function.update i.threads s.next i.cleanup s.next
  rw [Function.update_self, Resource.cleanup]
  cases i.isConsumer <;> decide

/-- **One step of a client**, apart from its creation and its cleanup. -/
theorem Speaks.step (lib : Librdkafka κ τ) (h : Speaks s t) (hs : s.Sound) (hres : s.res = some i)
    {e : LifeEvent} (he : e ≠ .cleanup) (hstep : s.step lib e = some s') :
    ∃ t', Speaks s' t' ∧ t.GoesOn t' := by
  have hi := hs.res i hres
  have ht := h.talk i hres
  cases e with
  | producerNew | consumerNew =>
    simp only [Life.step, hres] at hstep
    cases hstep
  | cleanup => exact absurd rfl he
  | copy =>
    simp only [Life.step, hres, Option.map_some] at hstep
    obtain rfl := Option.some.inj hstep
    refine ⟨t, h.silent hres (fun c hc => ?_) rfl, .inl rfl⟩
    exact List.mem_singleton.1 hc ▸ fun _ => rfl
  | drop =>
    simp only [Life.step, hres, Option.map_some] at hstep
    obtain rfl := Option.some.inj hstep
    split
    · obtain ⟨t', hrun, hgoes, htold⟩ := hi.talk_free
      rw [← ht] at hrun hgoes
      exact ⟨t', h.make hrun (by simp) fun _ => htold, hgoes⟩
    · refine ⟨t, h.silent hres (fun c hc => ?_) rfl, .inl rfl⟩
      exact List.mem_singleton.1 hc ▸ fun _ => rfl
  | topicNew clientRef topicName config succeeds =>
    simp only [Life.step, hres, Option.bind_some] at hstep
    split at hstep
    · cases hstep
    · obtain rfl := Option.some.inj hstep
      have hsilent := silent_enifProducerTopicNew lib i.topics clientRef topicName config s.next
        succeeds
      refine ⟨t, (h.silent hres hsilent ?_).withNext _, .inl rfl⟩
      rfl
  | getOrCreateTopic name succeeds =>
    simp only [Life.step, hres, Option.bind_some] at hstep
    split at hstep
    · cases hstep
    · obtain rfl := Option.some.inj hstep
      have hsilent := silent_addTopicCalls i.topics name s.next false succeeds
      refine ⟨t, (h.silent hres hsilent ?_).withNext _, .inl rfl⟩
      rfl
  | thread n =>
    simp only [Life.step, hres, Option.bind_some] at hstep
    split at hstep
    · cases hstep
    · next c rest hthread =>
      obtain rfl := Option.some.inj hstep
      obtain ⟨hcall, hgoes⟩ := hi.talk_perform hthread
      rw [← ht] at hcall hgoes
      refine ⟨(i.perform n c rest).talk, ?_, hgoes⟩
      refine h.make (run_singleton.trans hcall) (fun j hj => ?_) (by simp)
      rw [← Option.some.inj hj]

/-- **The thread can send the message by itself.** -/
theorem Speaks.exists_told (lib : Librdkafka κ τ) (h : Speaks s t) (hs : s.Sound)
    (hres : s.res = some i) {n : ℕ} (hn : i.closedFuture = some n) :
    ∃ s', Machine.run (Life.step lib) s (List.replicate (i.threads n).length (.thread n)) =
      some s' ∧ Speaks s' (.told n) := by
  obtain ⟨l, hl⟩ : ∃ l, i.threads n = l := ⟨_, rfl⟩
  rw [hl]
  induction l generalizing s i t with
  | nil =>
    obtain rfl : t = .told n := by
      rw [h.talk i hres, Resource.talk_of_future hn, hl]
      rfl
    exact ⟨s, rfl, h⟩
  | cons c rest ih =>
    have hstep : s.step lib (.thread n) = some (s.make (some (i.perform n c rest)) [c]) := by
      simp only [Life.step, hres, Option.bind_some, hl]
    have hrest : (i.perform n c rest).threads n = rest := Function.update_self ..
    obtain ⟨t', h', -⟩ := h.step lib hs hres (by simp) hstep
    rw [List.length_cons, List.replicate_succ, run_cons, hstep, Option.bind_some]
    exact ih h' (hs.step lib hstep trivial) rfl hn hrest

/-- The thread has at most four calls left. -/
theorem Resource.Sound.length_thread {next : ℕ} (h : i.Sound next) {n : ℕ}
    (hn : i.closedFuture = some n) : (i.threads n).length ≤ 4 := by
  refine (h.thread n hn).2.1.length_le.trans ?_
  rw [Resource.cleanup]
  cases i.isConsumer <;> decide

end Steps

end Exrdkafka.Nif.Owned
