import Exrdkafka.Consumer.Processing

/-!
# Interrupting the processing of messages

A stop may interrupt the processing of a list of messages; no other message of the mailbox is to
have a part in it. `Processing` runs the consumer next to a reference: the same process, given the
same answers, with only the stop messages in its mailbox.

* `Genuine`: the processing ends early only for a stop, which is answered; every other message stays
  in the mailbox, in order, and the process does what the reference does.
* `always_genuine_iff`: this holds in every state of a run exactly when, whenever the process looks
  for a stop, any other tuple of three elements in its mailbox is behind a stop. The pattern of
  `recv_stop` binds its first element, so it matches every tuple of three elements.
-/

namespace Exrdkafka.Consumer

open Nif Machine

/-! ## The process and its reference -/

/-- A stop message. -/
def Mail.isStop : Mail → Bool
  | .stop _ _ => true
  | _ => false

/-- What is seen of a process apart from its mailbox and timers. -/
def World.outcome (w : World) : State × Ctl × List Call := (w.state, w.ctl, w.trace)

/-- A process that handles messages, the mail that has come to it, in order, and its reference. -/
structure Processing where
  world : World
  seen : List Mail
  reference : World

/-- The mail that a step puts in the mailbox. -/
def delivered (w : World) : Label → List Mail
  | .arrive m => [m]
  | .expire i => (w.timers[i]?.map Mail.self).toList
  | _ => []

/-- A step of the reference: only stop messages arrive. -/
def referenceStep (r : World) : Label → Option World
  | .arrive m => if m.isStop then step r (.arrive m) else some r
  | .expire _ => some r
  | l => step r l

namespace Processing

/-- A process that is about to handle messages. -/
def start (w : World) : Processing :=
  ⟨w, w.mailbox, { w with mailbox := w.mailbox.filter Mail.isStop }⟩

/-- One step. A step that the reference cannot take leaves it behind. -/
def step (p : Processing) (l : Label) : Option Processing :=
  (procStep p.world l).map fun w =>
    ⟨w, p.seen ++ delivered p.world l, (referenceStep p.reference l).getD p.reference⟩

end Processing

/-! ## Genuine interruptions -/

/-- The stop that a process has ended on: it was in the mail, and it was answered. -/
structure StoppedOn (p : Processing) (sender tag : ℕ) : Prop where
  answered : ∃ calls, p.world.trace = calls ++ [.stopped sender tag]
  taken : ∃ pre post, p.seen = pre ++ .stop sender tag :: post ∧ p.world.mailbox = pre ++ post

/-- **Only a stop interrupts.** -/
structure Genuine (p : Processing) : Prop where
  /-- A process that has ended was stopped, and ends normally, or the store of an offset failed. -/
  interrupted : ∀ reason, p.world.ctl = .terminated reason →
    reason = .badMatch ∨ reason = .normal ∧ ∃ sender tag, StoppedOn p sender tag
  /-- Otherwise all mail is kept, in order. -/
  kept : p.world.ctl ≠ .terminated .normal → p.world.mailbox = p.seen
  /-- The other mail makes no difference. -/
  outcome : p.world.outcome = p.reference.outcome

/-- Every other tuple of three elements is behind a stop. -/
def Clear (mailbox : List Mail) : Prop :=
  ∀ pre t post, mailbox = pre ++ .triple t :: post → ∃ m ∈ pre, m.isStop = true

/-- A step that looks for a stop meets a clear mailbox. -/
def ClearLook (p : Processing) (l : Label) : Prop :=
  l = .next → p.world.ctl.looks = true → Clear p.world.mailbox

/-! ## Looking for a stop -/

/-- A message that is no tuple of three elements makes no difference. -/
theorem clear_cons {x : Mail} {mailbox : List Mail} (hx : x.isTriple = false)
    (hstop : x.isStop = false) : Clear (x :: mailbox) ↔ Clear mailbox := by
  refine ⟨fun h pre t post hms => ?_, fun h pre t post hms => ?_⟩
  · obtain ⟨m, hm, hmstop⟩ := h (x :: pre) t post (by rw [hms]; rfl)
    rcases List.mem_cons.1 hm with rfl | hm
    · rw [hstop] at hmstop
      cases hmstop
    · exact ⟨m, hm, hmstop⟩
  · cases pre with
    | nil =>
      obtain ⟨rfl, -⟩ := List.cons.inj hms
      cases hx
    | cons y pre =>
      obtain ⟨rfl, rfl⟩ := List.cons.inj hms
      obtain ⟨m, hm, hmstop⟩ := h pre t post rfl
      exact ⟨m, List.mem_cons_of_mem _ hm, hmstop⟩

/-- A mailbox is clear when what `recv_stop` takes is a stop. -/
theorem clear_iff (mailbox : List Mail) :
    Clear mailbox ↔ ∀ m rest, recvStop mailbox = some (m, rest) → m.isStop = true := by
  induction mailbox with
  | nil => exact iff_of_true (fun pre t post h => by simp at h) nofun
  | cons x ms ih =>
    rw [recvStop]
    cases x with
    | stop sender tag =>
      refine iff_of_true (fun pre t post h => ?_) (fun m rest h => ?_)
      · cases pre with
        | nil => cases h
        | cons y pre =>
          obtain ⟨rfl, -⟩ := List.cons.inj h
          exact ⟨_, List.mem_cons_self, rfl⟩
      · cases h
        rfl
    | triple t =>
      refine iff_of_false (fun h => ?_) (fun h => ?_)
      · obtain ⟨m, hm, -⟩ := h [] t ms rfl
        cases hm
      · cases h _ _ rfl
    | self _ | other _ =>
      rw [clear_cons rfl rfl, ih]
      refine ⟨fun h m rest hm => ?_, fun h m rest hm => ?_⟩
      · obtain ⟨⟨m', rest'⟩, hrecv, heq⟩ := Option.map_eq_some_iff.1 hm
        cases heq
        exact h _ _ hrecv
      · exact h m _ (by rw [hm]; rfl)

/-- Without tuples of three, there are no stops to keep. -/
theorem filter_isStop_of_not_triple {mailbox : List Mail}
    (h : ∀ m ∈ mailbox, m.isTriple = false) : mailbox.filter Mail.isStop = [] := by
  refine List.filter_eq_nil_iff.2 fun m hm hstop => ?_
  have hm := h m hm
  cases m <;> cases hstop
  cases hm

/-- What `recv_stop` takes of the stops alone. -/
theorem recvStop_filter {mailbox rest : List Mail} {sender tag : ℕ}
    (h : recvStop mailbox = some (.stop sender tag, rest)) :
    recvStop (mailbox.filter Mail.isStop) =
      some (.stop sender tag, rest.filter Mail.isStop) := by
  obtain ⟨-, pre, post, rfl, rfl, hpre⟩ := recvStop_eq_some h
  rw [List.filter_append, List.filter_append, filter_isStop_of_not_triple hpre,
    List.filter_cons_of_pos rfl]
  rfl

/-! ## Following the process -/

/-- `r'` is where the reference goes when the process goes from `w` to `w'` without using its
mailbox. -/
structure Follows (w w' r r' : World) : Prop where
  outcome : w'.outcome = r'.outcome
  mailbox : w'.mailbox = w.mailbox
  reference : r'.mailbox = r.mailbox

theorem outcome_eq {w r : World} (h : w.outcome = r.outcome) :
    w.state = r.state ∧ w.ctl = r.ctl ∧ w.trace = r.trace := by
  simpa [World.outcome] using h

theorem outcome_finish {w r : World} (h : w.outcome = r.outcome) (cbState : Term) :
    (finish w cbState).outcome = (finish r cbState).outcome := by
  obtain ⟨hstate, hctl, htrace⟩ := outcome_eq h
  simp [finish, World.outcome, World.schedule, World.goto, hstate, htrace]

theorem outcome_call_goto {w r : World} (h : w.outcome = r.outcome) (c : Call) (ctl : Ctl) :
    ((w.call c).goto ctl).outcome = ((r.call c).goto ctl).outcome := by
  obtain ⟨hstate, hctl, htrace⟩ := outcome_eq h
  simp [World.outcome, World.call, World.goto, hstate, htrace]

theorem outcome_call {w r : World} (h : w.outcome = r.outcome) (c : Call) :
    (w.call c).outcome = (r.call c).outcome := by
  obtain ⟨hstate, hctl, htrace⟩ := outcome_eq h
  simp [World.outcome, World.call, hstate, hctl, htrace]

/-- The labels of the process itself. -/
def Label.own : Label → Bool
  | .arrive _ | .expire _ => false
  | _ => true

/-- A step that does not look for a stop depends on the outcome alone. -/
theorem follows_of_not_looks {w w' r : World} {l : Label} (hsame : w.outcome = r.outcome)
    (hl : l.own = true) (hlook : l = .next → w.ctl.looks = false) (h : Proceeds w l w') :
    ∃ r', step r l = some r' ∧ Follows w w' r r' := by
  obtain ⟨hstate, hctl, htrace⟩ := outcome_eq hsame
  cases h with
  | arrived => cases hl
  | expired => cases hl
  | finished hc =>
    rw [hctl] at hc
    exact ⟨_, by simp [step, internal, hc], outcome_finish hsame _, rfl, rfl⟩
  | begun hc =>
    have hnot := hlook rfl
    rw [hc] at hnot
    cases hnot
  | retried hc =>
    have hnot := hlook rfl
    rw [hc] at hnot
    cases hnot
  | interrupted hc =>
    rw [hlook rfl] at hc
    cases hc
  | slept hc =>
    rw [hctl] at hc
    exact ⟨_, by simp [step, internal, hc], outcome_call_goto hsame _ _, rfl, rfl⟩
  | answered a hc =>
    rw [hctl] at hc
    refine ⟨(r.call _).goto _, ?_, outcome_call_goto hsame _ _, rfl, rfl⟩
    cases a <;> simp [step, Consumer.answered, hc, afterMessage]
  | answeredBatch a hc =>
    rw [hctl] at hc
    refine ⟨(r.call _).goto _, ?_, outcome_call_goto hsame _ _, rfl, rfl⟩
    cases a <;> simp [step, Consumer.answered, hc, afterBatch]
  | stored ok hc =>
    rw [hctl] at hc
    refine ⟨(r.call _).goto _, ?_, outcome_call_goto hsame _ _, rfl, rfl⟩
    simp [step, Consumer.stored, hc]
  | storedBatch hc =>
    rw [hctl] at hc
    refine ⟨finish (r.call _) _, ?_, outcome_finish (outcome_call hsame _) _, rfl, rfl⟩
    simp [step, Consumer.stored, hc]
  | storeFailed hc =>
    rw [hctl] at hc
    refine ⟨(r.call _).goto _, ?_, outcome_call_goto hsame _ _, rfl, rfl⟩
    simp [step, Consumer.stored, hc]

/-! ## One step -/

/-- The reference has the same outcome, and only the stops of the mailbox. -/
structure Sim (p : Processing) : Prop where
  outcome : p.world.outcome = p.reference.outcome
  stops : p.reference.mailbox = p.world.mailbox.filter Mail.isStop
  kept : p.world.mailbox = p.seen

theorem Sim.genuine {p : Processing} (h : Sim p)
    (hctl : ∀ reason, p.world.ctl = .terminated reason → reason = .badMatch) : Genuine p :=
  ⟨fun reason hr => .inl (hctl reason hr), fun _ => h.kept, h.outcome⟩

/-- Mail that comes is kept, and only a stop comes to the reference. -/
theorem Sim.arrived {p : Processing} (h : Sim p) {m : Mail} (hm : m.isSelf = false) :
    Sim ⟨{ p.world with mailbox := p.world.mailbox ++ [m] }, p.seen ++ [m],
      (referenceStep p.reference (.arrive m)).getD p.reference⟩ := by
  have hseen : p.world.mailbox ++ [m] = p.seen ++ [m] := by rw [h.kept]
  rw [referenceStep]
  by_cases hstop : m.isStop = true
  · have hstep : step p.reference (.arrive m) =
        some { p.reference with mailbox := p.reference.mailbox ++ [m] } := by
      simp [step, hm]
    rw [if_pos hstop, hstep]
    refine ⟨h.outcome, ?_, hseen⟩
    show p.reference.mailbox ++ [m] = (p.world.mailbox ++ [m]).filter Mail.isStop
    rw [h.stops, List.filter_append, List.filter_cons_of_pos hstop]
    rfl
  · rw [if_neg hstop]
    refine ⟨h.outcome, ?_, hseen⟩
    show p.reference.mailbox = (p.world.mailbox ++ [m]).filter Mail.isStop
    rw [h.stops, List.filter_append, List.filter_cons_of_neg hstop]
    exact (List.append_nil _).symm

theorem Sim.expired {p : Processing} (h : Sim p) (timers : List SelfMsg) (m : SelfMsg) :
    Sim ⟨{ p.world with timers, mailbox := p.world.mailbox ++ [Mail.self m] },
      p.seen ++ [Mail.self m],
      p.reference⟩ := by
  refine ⟨h.outcome, ?_, ?_⟩
  · show p.reference.mailbox = (p.world.mailbox ++ [Mail.self m]).filter Mail.isStop
    rw [h.stops, List.filter_append]
    exact (List.append_nil _).symm
  · show p.world.mailbox ++ [Mail.self m] = p.seen ++ [Mail.self m]
    rw [h.kept]

theorem sleepThen_terminated {ms : ℕ} {next : Ctl} {reason : ExitReason}
    (h : sleepThen ms next = .terminated reason) : next = .terminated reason := by
  unfold sleepThen at h
  split_ifs at h
  exact h

theorem afterMessage_ne_terminated (h : Message) (t : List Message) (backoff : ℕ) (cbState : Term)
    (a : Answer) (reason : ExitReason) :
    afterMessage h t backoff cbState a ≠ .terminated reason := by
  cases a with
  | ok new => exact nofun
  | error r new => exact fun heq => nomatch sleepThen_terminated heq
  | other r => exact fun heq => nomatch sleepThen_terminated heq

/-- Without a look for a stop, the process ends only when an offset is not stored. -/
theorem badMatch_of_not_looks {w w' : World} {l : Label} (hctl : w.ctl.processing = true)
    (hlook : l = .next → w.ctl.looks = false) (h : Proceeds w l w') {reason : ExitReason}
    (hreason : w'.ctl = .terminated reason) : reason = .badMatch := by
  cases h with
  | arrived | expired =>
    have hsame : w.ctl = .terminated reason := hreason
    rw [hsame] at hctl
    cases hctl
  | finished => cases hreason
  | begun hc =>
    have hnot := hlook rfl
    rw [hc] at hnot
    cases hnot
  | retried hc =>
    have hnot := hlook rfl
    rw [hc] at hnot
    cases hnot
  | interrupted hc =>
    rw [hlook rfl] at hc
    cases hc
  | @slept ms next hc =>
    have hnext : next = .terminated reason := hreason
    rw [hc, Ctl.processing, hnext] at hctl
    cases hctl
  | answered a hc => exact absurd hreason (afterMessage_ne_terminated _ _ _ _ a _)
  | answeredBatch a hc => cases a <;> cases hreason
  | stored ok hc =>
    cases ok with
    | true => cases hreason
    | false => exact (Ctl.terminated.inj hreason).symm
  | storedBatch => cases hreason
  | storeFailed => exact (Ctl.terminated.inj hreason).symm

/-- A step without a look for a stop is followed. -/
theorem Sim.not_looks {p : Processing} (h : Sim p) {l : Label} {w' : World} (hl : l.own = true)
    (hctl : p.world.ctl.processing = true) (hlook : l = .next → p.world.ctl.looks = false)
    (hstep : Proceeds p.world l w') : ∃ r', referenceStep p.reference l = some r' ∧
      Sim ⟨w', p.seen ++ delivered p.world l, r'⟩ ∧
      ∀ reason, w'.ctl = .terminated reason → reason = .badMatch := by
  obtain ⟨r', hr', hfollows⟩ := follows_of_not_looks h.outcome hl hlook hstep
  have hreference : referenceStep p.reference l = step p.reference l := by
    cases l <;> first | rfl | cases hl
  have hdelivered : delivered p.world l = [] := by
    cases l <;> first | rfl | cases hl
  refine ⟨r', hreference.trans hr', ⟨hfollows.outcome, ?_, ?_⟩,
    fun reason => badMatch_of_not_looks hctl hlook hstep⟩
  · rw [hfollows.reference, hfollows.mailbox]
    exact h.stops
  · rw [hdelivered, List.append_nil, hfollows.mailbox]
    exact h.kept

/-- What a step of `p` to `t` comes to: the reference follows and the condition is met, or the
process ends on what it found in its mailbox. -/
inductive StepCase (clear : Prop) (t : Processing) : Prop where
  | follows : clear → Sim t →
      (∀ reason, t.world.ctl = .terminated reason → reason = .badMatch) → StepCase clear t
  | stopped {sender tag : ℕ} : clear → StoppedOn t sender tag →
      t.world.ctl = .terminated .normal → t.world.outcome = t.reference.outcome → StepCase clear t
  | unexpected {m : Mail} : ¬ clear → t.world.ctl = .terminated (.unexpected m) → StepCase clear t

/-- The process goes on only if the reference has followed. -/
theorem StepCase.sim {clear : Prop} {t : Processing} (h : StepCase clear t)
    (hctl : t.world.ctl.processing = true) : Sim t := by
  cases h with
  | follows _ hsim => exact hsim
  | stopped _ _ hend | unexpected _ hend =>
    rw [hend] at hctl
    cases hctl

/-- The step leaves the interruptions genuine exactly when the condition is met. -/
theorem StepCase.genuine_iff {clear : Prop} {t : Processing} (h : StepCase clear t) :
    Genuine t ↔ clear := by
  cases h with
  | follows hclear hsim hend => exact iff_of_true (hsim.genuine hend) hclear
  | @stopped sender tag hclear hstopped hend hsame =>
    refine iff_of_true ⟨fun reason hreason => ?_, fun hne => absurd hend hne, hsame⟩ hclear
    rw [hend] at hreason
    exact .inr ⟨(Ctl.terminated.inj hreason).symm, sender, tag, hstopped⟩
  | unexpected hnot hend =>
    refine iff_of_false (fun hgenuine => ?_) hnot
    rcases hgenuine.interrupted _ hend with h | ⟨h, -⟩ <;> cases h

/-- A look that finds nothing. -/
theorem Sim.look_none {p : Processing} (h : Sim p) (hnone : recvStop p.world.mailbox = none)
    {ctl : Ctl} (hstep : ∀ r : World, r.ctl = p.world.ctl → recvStop r.mailbox = none →
      step r .next = some (r.goto ctl)) :
    ∃ r', referenceStep p.reference .next = some r' ∧
      Sim ⟨p.world.goto ctl, p.seen ++ [], r'⟩ := by
  obtain ⟨hstate, hctl, htrace⟩ := outcome_eq h.outcome
  have hstops : p.reference.mailbox = [] := by
    rw [h.stops, filter_isStop_of_not_triple (recvStop_eq_none hnone)]
  refine ⟨_, hstep p.reference hctl.symm (by rw [hstops]; rfl), ?_, h.stops, ?_⟩
  · simp [World.outcome, World.goto, hstate, htrace]
  · rw [List.append_nil]
    exact h.kept

/-- A look that finds a stop. -/
theorem Sim.look_stop {p : Processing} (h : Sim p) (hlooks : p.world.ctl.looks = true)
    {sender tag : ℕ} {rest : List Mail}
    (hrecv : recvStop p.world.mailbox = some (.stop sender tag, rest)) :
    ∃ r', referenceStep p.reference .next = some r' ∧
      (handleStop { p.world with mailbox := rest } sender tag).outcome = r'.outcome := by
  obtain ⟨hstate, hctl, htrace⟩ := outcome_eq h.outcome
  have hreference : recvStop p.reference.mailbox =
      some (.stop sender tag, rest.filter Mail.isStop) := by
    rw [h.stops]
    exact recvStop_filter hrecv
  refine ⟨handleStop { p.reference with mailbox := rest.filter Mail.isStop } sender tag, ?_, ?_⟩
  · rw [hctl] at hlooks
    show internal p.reference = _
    unfold internal
    revert hlooks
    cases hc : p.reference.ctl with
    | processEventsOneByOne msgs backoff cbState =>
      cases msgs with
      | nil => exact nofun
      | cons m msgs =>
        intro _
        simp only [hreference]
        rfl
    | handleBackoffOrStop msgs last backoff cbState =>
      intro _
      simp only [hreference]
      rfl
    | _ => exact nofun
  · simp [handleStop, World.outcome, World.call, World.goto, hstate, htrace]

theorem clear_of_none {mailbox : List Mail} (h : recvStop mailbox = none) : Clear mailbox := by
  refine (clear_iff _).2 fun m rest hm => ?_
  rw [h] at hm
  cases hm

theorem clear_of_stop {mailbox rest : List Mail} {sender tag : ℕ}
    (h : recvStop mailbox = some (.stop sender tag, rest)) : Clear mailbox := by
  refine (clear_iff _).2 fun m rest hm => ?_
  rw [h] at hm
  cases hm
  rfl

/-- A look for a stop that takes a message out of the mailbox. -/
theorem stepCase_interrupted {p : Processing} (h : Sim p) (hlooks : p.world.ctl.looks = true)
    {m : Mail} {rest : List Mail} (hrecv : recvStop p.world.mailbox = some (m, rest)) :
    StepCase (Clear p.world.mailbox) ⟨interrupted { p.world with mailbox := rest } m, p.seen ++ [],
      (referenceStep p.reference .next).getD p.reference⟩ := by
  obtain ⟨htriple, pre, post, hmailbox, rfl, -⟩ := recvStop_eq_some hrecv
  cases m with
  | stop sender tag =>
    obtain ⟨r', hr', hsame⟩ := h.look_stop hlooks hrecv
    have htaken : p.seen ++ [] = pre ++ .stop sender tag :: post := by
      rw [List.append_nil, ← h.kept, hmailbox]
    refine .stopped (clear_of_stop hrecv) ⟨⟨p.world.trace, rfl⟩, pre, post, htaken, rfl⟩ rfl ?_
    rw [hr']
    exact hsame
  | triple t =>
    refine .unexpected (fun hc => ?_) rfl
    have hstop := (clear_iff _).1 hc _ _ hrecv
    cases hstop
  | self m => cases htriple
  | other m => cases htriple

/-- A step that looks for a stop. -/
theorem stepCase_looks {p : Processing} {w' : World} (h : Sim p)
    (hlooks : p.world.ctl.looks = true) (hstep : Proceeds p.world .next w') :
    StepCase (Clear p.world.mailbox)
      ⟨w', p.seen ++ [], (referenceStep p.reference .next).getD p.reference⟩ := by
  cases hstep with
  | finished hc =>
    rw [hc] at hlooks
    cases hlooks
  | slept hc =>
    rw [hc] at hlooks
    cases hlooks
  | @begun hd tl backoff cbState hc hnone =>
    have hsame : ∀ r : World, r.ctl = p.world.ctl → recvStop r.mailbox = none →
        step r .next = some (r.goto (.handleMessage hd tl backoff cbState)) :=
      fun r hr hrecv => by simp [step, internal, hr, hc, hrecv]
    obtain ⟨r', hr', hsim⟩ := h.look_none hnone hsame
    rw [hr']
    refine .follows (clear_of_none hnone) hsim fun reason hreason => ?_
    cases hreason
  | @retried msgs last backoff cbState hc hnone =>
    have hsame : ∀ r : World, r.ctl = p.world.ctl → recvStop r.mailbox = none →
        step r .next = some (r.goto (retryBatch msgs last backoff cbState)) :=
      fun r hr hrecv => by simp [step, internal, hr, hc, hrecv]
    obtain ⟨r', hr', hsim⟩ := h.look_none hnone hsame
    rw [hr']
    refine .follows (clear_of_none hnone) hsim fun reason hreason => ?_
    cases sleepThen_terminated hreason
  | interrupted _ hrecv => exact stepCase_interrupted h hlooks hrecv

/-- **A step of the process and its reference.** -/
theorem stepCase {p t : Processing} {l : Label} (h : Sim p) (ht : p.step l = some t) :
    StepCase (ClearLook p l) t := by
  obtain ⟨w', hw', rfl⟩ := Option.map_eq_some_iff.1 ht
  obtain ⟨hctl, hstep⟩ := proceeds_of_step hw'
  by_cases hlook : l = .next ∧ p.world.ctl.looks = true
  · obtain ⟨rfl, hlooks⟩ := hlook
    have hclear : ClearLook p .next = Clear p.world.mailbox :=
      propext ⟨fun hc => hc rfl hlooks, fun hc _ _ => hc⟩
    rw [hclear]
    exact stepCase_looks h hlooks hstep
  · have hclear : ClearLook p l := fun hl hlooks => absurd ⟨hl, hlooks⟩ hlook
    have hnot : l = .next → p.world.ctl.looks = false := by
      intro hl
      by_contra hlooks
      exact hlook ⟨hl, by simpa using hlooks⟩
    have hprocessing : ∀ reason, p.world.ctl = .terminated reason → reason = .badMatch := by
      intro reason hreason
      rw [hreason] at hctl
      cases hctl
    cases l with
    | arrive m =>
      cases hstep with
      | arrived hm => exact .follows hclear (h.arrived hm) hprocessing
    | expire i =>
      cases hstep with
      | @expired i m hm =>
        have hdelivered : delivered p.world (.expire i) = [.self m] := by
          rw [delivered, hm]
          rfl
        rw [hdelivered]
        exact .follows hclear (h.expired _ m) hprocessing
    | next | polled _ | answered _ | stored _ =>
      obtain ⟨r', hr', hsim, hbad⟩ := h.not_looks rfl hctl hnot hstep
      rw [hr']
      exact .follows hclear hsim hbad

/-! ## Runs -/

theorem processing_processEvents (s : State) : (processEvents s).processing = true := by
  unfold processEvents
  split <;> rfl

theorem Sim.start (w : World) : Sim (.start w) := ⟨rfl, rfl, rfl⟩

/-- **Only a stop interrupts, exactly.** For every process that starts to handle messages, with any
mailbox, and every run of the processing with any mail coming, the interruptions are genuine in
every state of the run exactly when every look for a stop meets a clear mailbox. -/
theorem always_genuine_iff {w : World} (hw : w.ctl = processEvents w.state) {ls : List Label}
    {p : Processing} (hrun : run Processing.step (.start w) ls = some p) :
    Always Processing.step Genuine (.start w) ls ↔
      Along Processing.step ClearLook (.start w) ls := by
  have hprocessing : ∀ {s t : Processing} {l : Label}, s.step l = some t →
      s.world.ctl.processing = true := by
    intro s t l ht
    obtain ⟨w', hw', -⟩ := Option.map_eq_some_iff.1 ht
    exact (proceeds_of_step hw').1
  have hstart : (Processing.start w).world.ctl.processing = true := by
    show w.ctl.processing = true
    rw [hw]
    exact processing_processEvents w.state
  refine always_iff_along (I := fun s => s.world.ctl.processing = true → Sim s)
    (fun s l t hs ht => (stepCase (hs (hprocessing ht)) ht).sim)
    (fun s l t hs _ ht => (stepCase (hs (hprocessing ht)) ht).genuine_iff)
    (fun _ => .start w) ((Sim.start w).genuine fun reason hreason => ?_) hrun
  rw [hreason] at hstart
  cases hstart

/-- A call of the process, such as one that asks for its state, ends it. -/
theorem call_interrupts : ¬ Always Processing.step Genuine
    (.start (aboutToHandle [.triple (.tuple [.atom "system", .pid 1, .atom "get_state"])]))
    [.next] := by
  intro h
  have hend := (h.last (t := ⟨_, _, _⟩) rfl).interrupted (.unexpected _) rfl
  rcases hend with h | ⟨h, -⟩ <;> cases h

/-- A cast and a stop in the mailbox, and another stop that comes: the first stop is answered. -/
theorem always_genuine_iff_sample :
    Always Processing.step Genuine
        (.start (aboutToHandle [.other (.atom "cast"), .stop 1 2])) [.arrive (.stop 1 3), .next] ↔
      Along Processing.step ClearLook
        (.start (aboutToHandle [.other (.atom "cast"), .stop 1 2])) [.arrive (.stop 1 3), .next] :=
  always_genuine_iff (p := ⟨_, _, _⟩) rfl rfl

end Exrdkafka.Consumer
