import Exrdkafka.Consumer.CommitSafety
import Exrdkafka.Consumer.Interruption
import Exrdkafka.Consumer.Stop
import Mathlib.Algebra.BigOperators.Ring.List

/-!
# The schedule of a consumer

A consumer is driven by the messages it sends itself: `:poll_events` and `:process_messages`.
`Scheduled` says what holds of them in every state of a running consumer.

* Between two handler calls exactly one of them is outstanding, as a timer or in the mailbox:
  `:process_messages` if there are messages to handle, `:poll_events` if there are none.
* The messages polled so far are those the callback has acknowledged, followed by those the process
  still holds. A poll is made only when it holds none, so it overwrites nothing.
* While messages are handled, the steps of the process are bounded by the messages it holds and the
  answers that refuse them.
* From where `:process_messages` has reached the mailbox, the process can always take a step, and
  after a bounded number of its steps, and of refused answers, it has ended or all the messages it
  held are acknowledged. So every message polled is handed over, unless the process ends or the
  callback refuses an earlier one without end.
-/

namespace Exrdkafka.Consumer

open Nif Machine

/-! ## What a consumer holds -/

/-- The messages a call handed to the callback. -/
def Call.handed : Call → List Message
  | .handleMessage ms _ _ => ms
  | _ => []

/-- The messages handed to the callback in a history, in order. -/
def handedIn (tr : List Call) : List Message := tr.flatMap Call.handed

/-- The messages polled that the callback has not acknowledged yet. -/
def held (s : State) : Ctl → List Message
  | .loop => s.messages
  | .processEventsOneByOne msgs _ _ => msgs
  | .handleMessage h t _ _ => h :: t
  | .commitOffset _ t _ => t
  | .processEventsBatch msgs _ _ _ => msgs
  | .handleBackoffOrStop msgs _ _ _ => msgs
  | .sleeping _ next => held s next
  | .pollEvents | .storeBatch _ _ | .terminated _ => []

/-- The process has not ended. -/
def Ctl.live : Ctl → Bool
  | .terminated _ => false
  | .sleeping _ next => next.live
  | _ => true

theorem Call.acked_subset_handed (c : Call) : c.acked ⊆ c.handed := by
  cases c with
  | handleMessage ms cbState a => cases a <;> simp [acked, handed]
  | _ => simp [acked]

/-- A message is acknowledged in a call that hands it over. -/
theorem ackedIn_subset_handedIn (tr : List Call) : ackedIn tr ⊆ handedIn tr := by
  intro m hm
  obtain ⟨c, hc, hm⟩ := List.mem_flatMap.1 hm
  exact List.mem_flatMap.2 ⟨c, hc, c.acked_subset_handed hm⟩

theorem Progress.kept {tr : List Call} {s : State} {out : List SelfMsg} {ctl : Ctl}
    (h : Progress tr s out ctl) (hlive : ctl.live = true) :
    polledIn tr = ackedIn tr ++ held s ctl := by
  induction ctl with
  | loop => exact h.1.polled
  | pollEvents => exact h.1.polled
  | processEventsOneByOne => exact h.1.polled
  | handleMessage => exact h.1.polled
  | commitOffset => exact h.1.polled
  | processEventsBatch => exact h.1.polled
  | storeBatch => exact h.1.polled
  | handleBackoffOrStop => exact h.1.polled
  | sleeping ms next ih => exact ih h hlive
  | terminated => cases hlive

/-- Inside a handler nothing is outstanding. -/
theorem Progress.outstanding {tr : List Call} {s : State} {out : List SelfMsg} {ctl : Ctl}
    (h : Progress tr s out ctl) (hproc : ctl.processing = true) : out = [] := by
  induction ctl with
  | loop => cases hproc
  | pollEvents => cases hproc
  | processEventsOneByOne => exact h.2
  | handleMessage => exact h.2
  | commitOffset => exact h.2
  | processEventsBatch => exact h.2.2.2
  | storeBatch => exact h.2
  | handleBackoffOrStop => exact h.2.2.2
  | sleeping ms next ih => exact ih h hproc
  | terminated => cases hproc

/-! ## The steps needed to handle the messages -/

/-- The steps the process takes until it has handled the messages it holds, if the callback
acknowledges them. -/
def work : Ctl → ℕ
  | .processEventsOneByOne msgs _ _ => 3 * msgs.length + 1
  | .handleMessage _ t _ _ => 3 * t.length + 3
  | .commitOffset _ t _ => 3 * t.length + 2
  | .processEventsBatch _ _ _ _ => 2
  | .storeBatch _ _ => 1
  | .handleBackoffOrStop _ _ _ _ => 4
  | .sleeping _ next => work next + 1
  | .loop | .pollEvents | .terminated _ => 0

/-- The callback refuses. -/
def Label.refuses : Label → Bool
  | .answered (.ok _) => false
  | .answered _ => true
  | _ => false

/-- The steps of the process itself in a run. -/
def ownSteps (ls : List Label) : ℕ := (ls.map fun l => l.own.toNat).sum

/-- The answers of a run that refuse. -/
def refusals (ls : List Label) : ℕ := (ls.map fun l => l.refuses.toNat).sum

theorem work_sleepThen (ms : ℕ) (next : Ctl) : work (sleepThen ms next) ≤ work next + 1 := by
  unfold sleepThen
  split <;> simp [work]

theorem work_retryOneByOne (msgs : List Message) (backoff : ℕ) (cbState : Term) :
    work (retryOneByOne msgs backoff cbState) ≤ 3 * msgs.length + 2 :=
  work_sleepThen _ _

theorem work_retryBatch (msgs : List Message) (last : BatchOffset) (backoff : ℕ)
    (cbState : Term) : work (retryBatch msgs last backoff cbState) ≤ 3 :=
  work_sleepThen _ _

theorem work_interrupted (w : World) (m : Mail) : work (interrupted w m).ctl = 0 := by
  cases m <;> rfl

theorem work_pos_of_looks {ctl : Ctl} (h : ctl.looks = true) : 1 ≤ work ctl := by
  unfold Ctl.looks at h
  split at h
  · simp [work]
  · simp [work]
  · cases h

theorem work_afterMessage (h : Message) (t : List Message) (backoff : ℕ) (cbState : Term)
    (a : Answer) : 1 + work (afterMessage h t backoff cbState a) ≤
      work (.handleMessage h t backoff cbState) + 3 * (Label.answered a).refuses.toNat := by
  have hretry := work_retryOneByOne (h :: t) backoff
  rw [List.length_cons] at hretry
  cases a with
  | ok new =>
    simp only [afterMessage, work, Label.refuses, Bool.toNat_false]
    omega
  | error reason new =>
    have hnew := hretry new
    simp only [afterMessage, work, Label.refuses, Bool.toNat_true]
    omega
  | other t' =>
    have hsame := hretry cbState
    simp only [afterMessage, work, Label.refuses, Bool.toNat_true]
    omega

theorem work_afterBatch (msgs : List Message) (last : BatchOffset) (backoff : ℕ) (cbState : Term)
    (a : Answer) : 1 + work (afterBatch msgs last backoff cbState a) ≤
      work (.processEventsBatch msgs last backoff cbState) +
        3 * (Label.answered a).refuses.toNat := by
  cases a <;> simp [afterBatch, work, Label.refuses]

/-- A step of the process takes work off, unless the callback refuses. -/
theorem work_step {w w' : World} {l : Label} (h : procStep w l = some w') :
    l.own.toNat + work w'.ctl ≤ work w.ctl + 3 * l.refuses.toNat := by
  obtain ⟨-, hp⟩ := proceeds_of_step h
  cases hp with
  | arrived => simp [Label.own]
  | expired => simp [Label.own]
  | finished hc => simp [hc, finish, World.goto, work, Label.own]
  | begun hc =>
    simp only [hc, World.goto, work, Label.own, List.length_cons, Bool.toNat_true]
    omega
  | @retried msgs last backoff cbState hc =>
    have hretry := work_retryBatch msgs last backoff cbState
    simp only [hc, World.goto, Label.own, Bool.toNat_true, work]
    omega
  | @interrupted m rest hlook =>
    have hpos := work_pos_of_looks hlook
    simp only [work_interrupted, Label.own, Bool.toNat_true]
    omega
  | slept hc =>
    simp only [hc, World.goto, work, Label.own, Bool.toNat_true]
    omega
  | answered a hc =>
    rw [hc]
    exact work_afterMessage _ _ _ _ a
  | answeredBatch a hc =>
    rw [hc]
    exact work_afterBatch _ _ _ _ a
  | stored ok hc =>
    cases ok with
    | true =>
      simp only [hc, World.goto, work, Label.own, Bool.toNat_true, if_true]
      omega
    | false =>
      simp only [hc, World.goto, work, Label.own, Bool.toNat_true, Bool.false_eq_true, if_false]
      omega
  | storedBatch hc => simp [hc, finish, World.goto, work, Label.own]
  | storeFailed hc => simp [hc, World.goto, work, Label.own]

/-- The steps of the process while it handles messages are bounded by its work and the answers that
refuse. -/
theorem ownSteps_le {w w' : World} {ls : List Label} (hrun : run procStep w ls = some w') :
    ownSteps ls + work w'.ctl ≤ work w.ctl + 3 * refusals ls := by
  have hbudget := run_budget (fun _ _ _ h => work_step h) hrun
  rwa [List.sum_map_mul_left] at hbudget

/-! ## Messages that are due -/

/-- The handling of the messages has begun, or what begins it has reached the mailbox. -/
def Due (w : World) : Prop :=
  w.ctl = .loop ∧ .self .processMessages ∈ w.mailbox ∨ w.ctl.processing = true

/-- The mail that is taken before `:process_messages`. -/
def ahead (mailbox : List Mail) : List Mail := mailbox.takeWhile fun m => m ≠ .self .processMessages

/-- The steps the process takes until it has handled the messages that are due, if the callback
acknowledges them. -/
def todo (w : World) : ℕ :=
  match w.ctl with
  | .loop => (ahead w.mailbox).length + 1 + work (processEvents w.state)
  | ctl => work ctl

theorem todo_of_processing {w : World} (h : w.ctl.processing = true) : todo w = work w.ctl := by
  unfold todo
  split
  · rename_i hc
    rw [hc] at h
    cases h
  · rfl

theorem work_pos {ctl : Ctl} (h : ctl.processing = true) : 1 ≤ work ctl := by
  cases ctl with
  | loop | pollEvents | terminated => cases h
  | _ => simp [work]

theorem Due.todo_pos {w : World} (h : Due w) : 1 ≤ todo w := by
  rcases h with ⟨hc, -⟩ | hproc
  · rw [todo, hc]
    exact Nat.le_add_right_of_le (Nat.le_add_left 1 _)
  · rw [todo_of_processing hproc]
    exact work_pos hproc

theorem ahead_append {mailbox : List Mail} (h : .self .processMessages ∈ mailbox) (m : Mail) :
    ahead (mailbox ++ [m]) = ahead mailbox := by
  induction mailbox with
  | nil => cases h
  | cons x ms ih =>
    by_cases hx : x = .self .processMessages
    · simp [ahead, hx]
    · have hrest := ih ((List.mem_cons.1 h).resolve_left (Ne.symm hx))
      simpa [ahead, hx] using hrest

theorem processing_sleepThen (ms : ℕ) (next : Ctl) :
    (sleepThen ms next).processing = next.processing := by
  unfold sleepThen
  split <;> rfl

/-- While messages are handled nothing is polled. -/
theorem Proceeds.polled {w w' : World} {l : Label} (h : Proceeds w l w') :
    polledIn w'.trace = polledIn w.trace := by
  cases h with
  | @interrupted m rest => cases m <;> simp [Consumer.interrupted, handleStop, World.goto,
      World.call, Call.polled]
  | _ => simp [finish, World.goto, World.call, World.schedule, Call.polled]

/-- The handling of messages goes on, or no message is left, or the process ends. -/
theorem Proceeds.goesOn {w w' : World} {l : Label} (h : Proceeds w l w')
    (hproc : w.ctl.processing = true) (hlive : w'.ctl.live = true) :
    w'.ctl.processing = true ∨ w'.ctl = .loop ∧ w'.state.messages = [] := by
  cases h with
  | arrived | expired => exact .inl hproc
  | finished | storedBatch => exact .inr ⟨rfl, rfl⟩
  | begun => exact .inl rfl
  | retried => exact .inl (processing_sleepThen _ _)
  | @interrupted m rest => cases m <;> cases hlive
  | slept hc =>
    rw [hc] at hproc
    exact .inl hproc
  | answered a =>
    cases a with
    | ok => exact .inl rfl
    | error | other => exact .inl (processing_sleepThen _ _)
  | answeredBatch a => cases a <;> exact .inl rfl
  | stored ok =>
    cases ok with
    | true => exact .inl rfl
    | false => cases hlive
  | storeFailed => cases hlive

/-- A process that waits with `:process_messages` in its mailbox takes the mail before it, then
begins. -/
theorem todo_receive {w w' : World} (h : Inv w) (hc : w.ctl = .loop)
    (hmem : .self .processMessages ∈ w.mailbox) (hstep : internal w = some w')
    (hlive : w'.ctl.live = true) : w'.trace = w.trace ∧ Due w' ∧ 1 + todo w' ≤ todo w := by
  obtain ⟨m, rest, hmail⟩ : ∃ m rest, w.mailbox = m :: rest := List.exists_cons_of_ne_nil
    (List.ne_nil_of_mem hmem)
  have hw' : receive { w with mailbox := rest } m = w' := by
    simpa [internal, hc, hmail] using hstep
  subst hw'
  have htodo : todo w = (ahead (m :: rest)).length + 1 + work (processEvents w.state) := by
    rw [todo, hc, hmail]
  rw [hmail] at hmem
  by_cases hm : m = .self .processMessages
  · subst hm
    have hproc := processing_processEvents w.state
    refine ⟨rfl, .inr hproc, ?_⟩
    rw [todo_of_processing (w := receive { w with mailbox := rest } (.self .processMessages)) hproc,
      htodo]
    show 1 + work (processEvents w.state) ≤ _
    omega
  · have hrest := (List.mem_cons.1 hmem).resolve_left (Ne.symm hm)
    have hahead : ahead (m :: rest) = m :: ahead rest := by simp [ahead, hm]
    -- the mail that is left alone
    have hleft : todo { w with mailbox := rest } =
        (ahead rest).length + 1 + work (processEvents w.state) := by
      rw [todo, hc]
    cases m with
    | self m =>
      cases m with
      | processMessages => exact absurd rfl hm
      | pollEvents =>
        have hp := h.progress
        rw [hc] at hp
        have hpoll : SelfMsg.pollEvents ∈ outstanding w := by simp [outstanding, hmail, Mail.self?]
        have hproc : SelfMsg.processMessages ∈ outstanding w :=
          List.mem_append_right _ (List.mem_filterMap.2 ⟨.self .processMessages, hmail ▸ hmem, rfl⟩)
        rw [hp.2.2, List.mem_singleton] at hpoll hproc
        cases hpoll.trans hproc.symm
    | stop sender tag => cases hlive
    | triple t | other t =>
      refine ⟨rfl, .inl ⟨hc, hrest⟩, ?_⟩
      show 1 + todo { w with mailbox := rest } ≤ todo w
      rw [htodo, hleft, hahead, List.length_cons]
      omega

/-- A step takes something off what is to do, unless the callback refuses; or no message is left. -/
theorem Due.step {w w' : World} {l : Label} (h : Inv w) (hdue : Due w) (hstep : step w l = some w')
    (hlive : w'.ctl.live = true) : polledIn w'.trace = polledIn w.trace ∧
      (w'.ctl = .loop ∧ w'.state.messages = [] ∨
        Due w' ∧ l.own.toNat + todo w' ≤ todo w + 3 * l.refuses.toNat) := by
  rcases hdue with ⟨hc, hmem⟩ | hproc
  · have hquiet : ∀ m timers, todo { w with mailbox := w.mailbox ++ [m], timers } ≤ todo w := by
      intro m timers
      rw [todo, todo, hc]
      exact (congrArg (List.length · + 1 + _) (ahead_append hmem m)).le
    cases l with
    | arrive m =>
      simp only [Consumer.step] at hstep
      split_ifs at hstep
      obtain rfl := Option.some.inj hstep
      refine ⟨rfl, .inr ⟨.inl ⟨hc, List.mem_append_left _ hmem⟩, ?_⟩⟩
      exact (Nat.zero_add _).trans_le (hquiet m w.timers)
    | expire i =>
      obtain ⟨m, -, rfl⟩ := Option.map_eq_some_iff.1 hstep
      refine ⟨rfl, .inr ⟨.inl ⟨hc, List.mem_append_left _ hmem⟩, ?_⟩⟩
      exact (Nat.zero_add _).trans_le (hquiet (.self m) _)
    | next =>
      obtain ⟨htrace, hdue, htodo⟩ := todo_receive h hc hmem hstep hlive
      exact ⟨by rw [htrace], .inr ⟨hdue, htodo⟩⟩
    | polled queue => simp [Consumer.step, hc] at hstep
    | answered a => simp [Consumer.step, Consumer.answered, hc] at hstep
    | stored ok => simp [Consumer.step, Consumer.stored, hc] at hstep
  · have hps : procStep w l = some w' := by rw [procStep, if_pos hproc, hstep]
    obtain ⟨-, hp⟩ := proceeds_of_step hps
    refine ⟨hp.polled, ?_⟩
    rcases hp.goesOn hproc hlive with hproc' | hend
    · refine .inr ⟨.inr hproc', ?_⟩
      rw [todo_of_processing hproc, todo_of_processing hproc']
      exact work_step hps
    · exact .inl hend

/-- What is held is among what was polled. -/
theorem Inv.held_subset {w : World} (h : Inv w) (hlive : w.ctl.live = true) :
    held w.state w.ctl ⊆ polledIn w.trace := by
  rw [h.progress.kept hlive]
  exact List.subset_append_right _ _

theorem Due.live {w : World} (h : Due w) : w.ctl.live = true := by
  rcases h with ⟨hc, -⟩ | hproc
  · rw [hc]
    rfl
  · generalize w.ctl = ctl at hproc
    induction ctl with
    | sleeping ms next ih => exact ih hproc
    | terminated => cases hproc
    | _ => rfl

theorem acked_of_step {w w' : World} {l : Label} (h : step w l = some w') :
    ackedIn w.trace ⊆ ackedIn w'.trace := by
  obtain ⟨calls, hcalls⟩ := (step_extends h).trace
  rw [← hcalls, ackedIn, ackedIn, List.flatMap_append]
  exact List.subset_append_left _ _

theorem live_of_step {w w' : World} {l : Label} (h : step w l = some w')
    (hlive : w'.ctl.live = true) : w.ctl.live = true := by
  cases l with
  | arrive m =>
    simp only [Consumer.step] at h
    split_ifs at h
    obtain rfl := Option.some.inj h
    exact hlive
  | expire i =>
    obtain ⟨m, -, rfl⟩ := Option.map_eq_some_iff.1 h
    exact hlive
  | next =>
    simp only [Consumer.step, internal] at h
    split at h
    case h_5 ms next hc =>
      obtain rfl := Option.some.inj h
      rw [hc]
      exact hlive
    case h_6 => cases h
    all_goals rename_i hc; rw [hc]; rfl
  | polled queue =>
    simp only [Consumer.step] at h
    split at h
    · rename_i hc
      rw [hc]
      rfl
    · cases h
  | answered a =>
    simp only [Consumer.step, answered] at h
    split at h
    case h_3 => cases h
    all_goals rename_i hc; rw [hc]; rfl
  | stored ok =>
    simp only [Consumer.step, stored] at h
    split at h
    case h_3 => cases h
    all_goals rename_i hc; rw [hc]; rfl

/-- In a run from where messages are due, either they are all acknowledged, or the steps taken are
taken off what is to do. -/
theorem Due.run {w w' : World} {ls : List Label} (h : Inv w) (hdue : Due w)
    (hrun : run Consumer.step w ls = some w') (hlive : w'.ctl.live = true) :
    (∀ m ∈ held w.state w.ctl, m ∈ ackedIn w'.trace) ∨
      polledIn w'.trace = polledIn w.trace ∧ Due w' ∧
        ownSteps ls + todo w' ≤ todo w + 3 * refusals ls := by
  have hheld := hdue.live
  have hhistory := run_history (P := fun ls w' => Inv w' ∧ (w'.ctl.live = true →
    (∀ m ∈ held w.state w.ctl, m ∈ ackedIn w'.trace) ∨
      polledIn w'.trace = polledIn w.trace ∧ Due w' ∧
        ownSteps ls + todo w' ≤ todo w + 3 * refusals ls))
    ⟨h, fun _ => .inr ⟨rfl, hdue, by simp [ownSteps, refusals]⟩⟩ ?_ hrun
  · exact hhistory.2 hlive
  rintro ls t l u ⟨hinv, ht⟩ hstep
  refine ⟨hinv.step hstep, fun hlive => ?_⟩
  rcases ht (live_of_step hstep hlive) with hacked | ⟨hpolled, hdue, hsteps⟩
  · exact .inl fun m hm => acked_of_step hstep (hacked m hm)
  obtain ⟨hsame, hend | ⟨hdue', htodo⟩⟩ := hdue.step hinv hstep hlive
  · -- no message is left, so all that was polled is acknowledged
    left
    have hkept := (hinv.step hstep).progress.kept hlive
    rw [hend.1, held, hend.2, List.append_nil] at hkept
    intro m hm
    rw [← hkept, hsame, hpolled]
    exact h.held_subset hheld hm
  · refine .inr ⟨hsame.trans hpolled, hdue', ?_⟩
    simp only [ownSteps, refusals, List.map_append, List.sum_append, List.map_cons, List.map_nil,
      List.sum_cons, List.sum_nil] at hsteps ⊢
    omega

/-- A process that has messages due can take a step. -/
theorem Due.enabled {w : World} (h : Due w) : ∃ l, l.own = true ∧ (Consumer.step w l).isSome := by
  rcases h with ⟨hc, hmem⟩ | hproc
  · refine ⟨.next, rfl, ?_⟩
    obtain ⟨m, rest, hmail⟩ := List.exists_cons_of_ne_nil (List.ne_nil_of_mem hmem)
    simp [Consumer.step, internal, hc, hmail]
  cases hc : w.ctl with
  | loop | pollEvents | terminated =>
    rw [hc] at hproc
    cases hproc
  | processEventsOneByOne msgs backoff cbState =>
    refine ⟨.next, rfl, ?_⟩
    cases msgs <;> simp only [Consumer.step, internal, hc] <;> [skip; split] <;> rfl
  | handleBackoffOrStop msgs last backoff cbState =>
    refine ⟨.next, rfl, ?_⟩
    simp only [Consumer.step, internal, hc]
    split <;> rfl
  | sleeping ms next => exact ⟨.next, rfl, by simp [Consumer.step, internal, hc]⟩
  | handleMessage | processEventsBatch =>
    exact ⟨.answered (.ok .nil), rfl, by simp [Consumer.step, answered, hc]⟩
  | commitOffset | storeBatch =>
    exact ⟨.stored true, rfl, by simp [Consumer.step, stored, hc]⟩

/-! ## The schedule -/

/-- What holds between two handler calls. -/
structure Waiting (w : World) : Prop where
  one : ∃ m, outstanding w = [m]
  processes : .processMessages ∈ outstanding w ↔ w.state.messages ≠ []
  lastOffset : w.state.lastOffset = Nif.lastOffset w.state.messages

/-- The schedule of a consumer. -/
structure Scheduled (w : World) : Prop where
  waiting : w.ctl = .loop → Waiting w
  /-- A poll is made when every message polled before is acknowledged and none is outstanding. -/
  polling : w.ctl = .pollEvents →
    w.state.messages = [] ∧ polledIn w.trace = ackedIn w.trace ∧ outstanding w = []
  busy : w.ctl.processing = true → outstanding w = []
  /-- No message is dropped. -/
  kept : w.ctl.live = true → polledIn w.trace = ackedIn w.trace ++ held w.state w.ctl
  handed : w.ctl.live = true → ∀ m ∈ polledIn w.trace, m ∉ handedIn w.trace → m ∈ held w.state w.ctl
  /-- The handling of messages ends, unless the callback refuses without end. -/
  ends : ∀ ls w', run procStep w ls = some w' →
    ownSteps ls + work w'.ctl ≤ work w.ctl + 3 * refusals ls
  /-- The messages that wait are due, or they are once the timer has fired. -/
  comes : w.ctl = .loop → w.state.messages ≠ [] →
    Due w ∨ ∃ i w', step w (.expire i) = some w' ∧ Due w'
  /-- Then the process can always go on. -/
  enabled : Due w → ∃ l, l.own = true ∧ (step w l).isSome
  /-- And the messages it holds are acknowledged after the steps that are to do, and three for every
  refusal, unless it ends. -/
  delivers : Due w → ∀ ls w', run step w ls = some w' → w'.ctl.live = true →
    todo w + 3 * refusals ls ≤ ownSteps ls → ∀ m ∈ held w.state w.ctl, m ∈ ackedIn w'.trace

theorem Inv.waiting {w : World} (h : Inv w) (hc : w.ctl = .loop) : Waiting w := by
  have hp := h.progress
  rw [hc] at hp
  obtain ⟨-, hl, hout⟩ := hp
  refine ⟨⟨_, hout⟩, ?_, hl⟩
  rw [hout]
  split <;> simp [*]

theorem Inv.scheduled {w : World} (h : Inv w) : Scheduled w := by
  refine ⟨h.waiting, fun hc => ?_, h.progress.outstanding, h.progress.kept, ?_,
    fun ls w' hrun => ownSteps_le hrun, fun hc hne => ?_, Due.enabled,
    fun hdue ls w' hrun hlive hsteps => ?_⟩
  · have hp := h.progress
    rw [hc] at hp
    exact ⟨hp.2.1, by simpa using hp.1.polled, hp.2.2.2⟩
  · intro hlive m hm hnot
    rw [h.progress.kept hlive] at hm
    exact (List.mem_append.1 hm).resolve_left fun hack => hnot (ackedIn_subset_handedIn _ hack)
  · have hout := (h.waiting hc).processes.2 hne
    rcases List.mem_append.1 hout with htimer | hmail
    · obtain ⟨i, hi, htimer⟩ := List.getElem_of_mem htimer
      have hget : w.timers[i]? = some .processMessages :=
        (List.getElem?_eq_getElem hi).trans (congrArg some htimer)
      have hexpire : Consumer.step w (.expire i) = some { w with
          timers := w.timers.eraseIdx i
          mailbox := w.mailbox ++ [.self .processMessages] } := by
        rw [Consumer.step, hget]
        rfl
      exact .inr ⟨i, _, hexpire, .inl ⟨hc, List.mem_append_right _ List.mem_cons_self⟩⟩
    · obtain ⟨m, hm, hself⟩ := List.mem_filterMap.1 hmail
      cases m with
      | self m =>
        obtain rfl := Option.some.inj hself
        exact .inl (.inl ⟨hc, hm⟩)
      | _ => cases hself
  · rcases hdue.run h hrun hlive with hacked | ⟨-, hdue', hbound⟩
    · exact hacked
    · have hpos := hdue'.todo_pos
      omega

/-- **The schedule of a consumer** holds in every state of every run. -/
theorem scheduled_of_run (clientRef : Term) (topicName : List UInt8) (partition : ℤ)
    (queueRef : Term) (topicSettings : Option (List (Term × Term))) (answer : InitAnswer)
    {s : State} (hinit : init clientRef topicName partition queueRef topicSettings answer = .ok s)
    (ls : List Label) {w : World} (hrun : run step (World.start s) ls = some w) : Scheduled w := by
  obtain ⟨hm, hl⟩ := init_ok hinit
  have hinv : Inv w := run_invariant (fun _ _ _ h hs => h.step hs) (Inv.start hm hl) hrun
  exact hinv.scheduled

/-- A batch has been polled and is to be handled. -/
theorem scheduled_of_run_sample :
    Scheduled ⟨{ sampleState with messages := sampleBatch, lastOffset := 8 }, .loop, [],
      [.processMessages], [.poll sampleBatch]⟩ :=
  scheduled_of_run (.ref 0) [101] 0 (.ref 1)
    (some [(.atom "dispatch_mode", .tuple [.atom "batch", .int 10])]) (.ok .nil)
    (s := sampleState) rfl (sampleRun.take 3) rfl

end Exrdkafka.Consumer
