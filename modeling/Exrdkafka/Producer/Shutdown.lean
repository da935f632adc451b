import Mathlib.Data.List.TakeWhile
import Exrdkafka.Foundations.Machine
import Exrdkafka.Producer.Server

/-!
# Delivery reports and the shutdown of a producer

The producer process handles its messages one after the other until it takes the exit signal of its
supervisor. It then has its client cleaned up: a thread of the library flushes the client, which
calls for more delivery reports, and sends `:client_stopped` at the end, and the process waits for
that message alone. Messages arrive at any time in between, in any order.

* `Process.passed`: the reports that were passed to the callback.
* `passed_prefix`: they are reports sent to the process, in order and none twice.
* `passed_eq_sent_iff`: a process that ends on a shutdown has passed every report sent before
  `:client_stopped` exactly when none was sent behind the exit signal, since nothing in `terminate`
  takes a report out of the mailbox.
-/

namespace Exrdkafka.Producer

open GenServer Nif Machine

/-! ## The process -/

/-- What is in the mailbox. -/
inductive Mail where
  | message (m : Message)
  /-- a cast -/
  | cast
  /-- the exit signal of the supervisor, which the process traps -/
  | exit (reason : Term)
  /-- `:client_stopped`, sent by the thread that has flushed the client -/
  | clientStopped

/-- How the process ended. -/
inductive Ended where
  | exit (reason : Term)
  | crash
  deriving DecidableEq

/-- Where the process is in its code. -/
inductive Ctl where
  /-- waiting for a message -/
  | loop
  /-- `terminate` -/
  | terminate (reason : Term)
  /-- `terminate`, at the wait for `:client_stopped` -/
  | waiting
  | terminated (ended : Ended)
  deriving DecidableEq

/-- What the process does. -/
inductive Action where
  | effect (e : Effect)
  /-- `LocalQueue.free` -/
  | free
  /-- `ExrdkafkaNif.producer_cleanup` -/
  | cleanup (ref : Term)
  deriving DecidableEq

/-- The process, and whether its client is being flushed. -/
structure Process where
  server : State
  ctl : Ctl
  mailbox : List Mail
  flushing : Bool
  trace : List Action

/-- `:shutdown` -/
def shutdown : Term := .atom "shutdown"

namespace Process

/-- A process whose `init` succeeded. -/
def start (s : State) : Process := ⟨s, .loop, [], false, []⟩

/-- The process has done something. -/
def act (p : Process) (as : List Action) : Process := { p with trace := p.trace ++ as }

/-- The process goes on at `ctl`. -/
def goto (p : Process) (ctl : Ctl) : Process := { p with ctl }

/-- A callback has raised: `terminate` is called with another reason than `:shutdown`. -/
def crash (p : Process) : Process := (p.act [.free]).goto (.terminated .crash)

/-- A callback of the process has returned or raised. -/
def handled (p : Process) (h : Handled State Term Effect) : Process :=
  let p := p.act (h.effects.map .effect)
  match h.next with
  | some server => { p with server }
  | none => p.crash

/-- A message is taken from the mailbox by the server loop. -/
def receive (p : Process) : Mail → Process
  | .message m => p.handled (handle p.server m)
  | .cast => p
  | .exit reason => p.goto (.terminate reason)
  | .clientStopped => p.handled (handleInfo p.server (.other (.atom "client_stopped")))

/-- `terminate` up to the wait. `enif_producer_cleanup` is a bad argument unless it is given a
client. -/
def terminate (p : Process) (reason : Term) : Process :=
  let p := p.act [.free]
  if reason = shutdown then
    match getResource p.server.ref with
    | none => p.goto (.terminated .crash)
    | some _ => { (p.act [.cleanup p.server.ref]).goto .waiting with flushing := true }
  else p.goto (.terminated (.exit reason))

end Process

/-- `:client_stopped` -/
def Mail.isClientStopped : Mail → Bool
  | .clientStopped => true
  | _ => false

/-- What can happen. -/
inductive Label where
  /-- a message arrives, such as a delivery report or the exit signal -/
  | arrive (m : Mail)
  /-- the process takes a step -/
  | next
  /-- the callback raises on a delivery report -/
  | raised
  /-- `cleanup_producer` is through with the flush and sends `:client_stopped` -/
  | flushed

namespace Process

/-- The step the process takes. -/
def next (p : Process) : Option Process :=
  match p.ctl with
  | .loop =>
    match p.mailbox with
    | [] => none
    | m :: rest => some (receive { p with mailbox := rest } m)
  | .terminate reason => some (p.terminate reason)
  | .waiting =>
    if p.mailbox.any Mail.isClientStopped then
      some { p.goto (.terminated (.exit shutdown)) with
        mailbox := p.mailbox.eraseP Mail.isClientStopped }
    else none
  | .terminated _ => none

/-- The callback is called with the delivery report at the head of the mailbox, and raises. -/
def raised (p : Process) : Option Process :=
  match p.ctl, p.mailbox with
  | .loop, .message (.info (.deliveryReport status message)) :: rest =>
    if p.server.callback = .undefined then none
    else some (({ p with mailbox := rest }.act [.effect (.deliveryReport status message)]).crash)
  | _, _ => none

/-- One step of the process or around it. -/
def step (p : Process) : Label → Option Process
  | .arrive m =>
    if m.isClientStopped then none else some { p with mailbox := p.mailbox ++ [m] }
  | .next => p.next
  | .raised => p.raised
  | .flushed =>
    if p.flushing then
      some { p with flushing := false, mailbox := p.mailbox ++ [.clientStopped] }
    else none

end Process

/-! ## Reports sent and reports passed -/

/-- The delivery report that a message is. -/
def Message.report? : Message → Option (Term × Term)
  | .info (.deliveryReport status message) => some (status, message)
  | _ => none

def Mail.report? : Mail → Option (Term × Term)
  | .message m => m.report?
  | _ => none

/-- The delivery reports among some messages. -/
def reports (ms : List Mail) : List (Term × Term) := ms.filterMap Mail.report?

/-- The report that an action passes to the callback. -/
def Action.passed? : Action → Option (Term × Term)
  | .effect (.deliveryReport status message) => some (status, message)
  | _ => none

/-- The delivery reports passed to the callback, in order. -/
def Process.passed (p : Process) : List (Term × Term) := p.trace.filterMap Action.passed?

def Label.isFlushed : Label → Bool
  | .flushed => true
  | _ => false

/-- The message that arrives. -/
def Label.arrival? : Label → Option Mail
  | .arrive m => some m
  | _ => none

/-- The messages that arrive before `:client_stopped`, in order. -/
def arrivals (ls : List Label) : List Mail :=
  (ls.takeWhile fun l => !l.isFlushed).filterMap Label.arrival?

/-- No delivery report is sent behind an exit signal. -/
def NoneLate (ls : List Label) : Prop :=
  ∀ pre reason post, arrivals ls = pre ++ .exit reason :: post → reports post = []

/-! ## Handling a message -/

theorem callback_of_handle {s s' : State} {m : Message} (h : (handle s m).next = some s') :
    s'.callback = s.callback := by
  cases m with
  | call r =>
    cases r with
    | queueEvent e =>
      simp only [handle, handleCall] at h
      split_ifs at h <;> exact Option.some.inj h ▸ rfl
    | getStats => cases h
    | other request => exact Option.some.inj h ▸ rfl
  | info i =>
    cases i with
    | consumeQueue answers =>
      simp only [handle, handleInfo] at h
      split at h <;> exact Option.some.inj h ▸ rfl
    | deliveryReport status message => exact Option.some.inj h ▸ rfl
    | stats stats => cases h
    | other info => exact Option.some.inj h ▸ rfl

/-- A delivery report is passed to the callback, and nothing else is. -/
theorem passed_handle {s : State} (hcb : s.callback ≠ .undefined) (m : Message) :
    ((handle s m).effects.map Action.effect).filterMap Action.passed? = m.report?.toList := by
  cases m with
  | call r =>
    cases r with
    | queueEvent e =>
      simp only [handle, handleCall]
      split_ifs
      · simp only [Handled.effects, scheduleConsumeQueue]
        split_ifs <;> rfl
      · rfl
    | getStats => rfl
    | other request => rfl
  | info i =>
    cases i with
    | consumeQueue answers =>
      simp only [handle, handleInfo]
      split <;> simp [Handled.effects, Message.report?, Action.passed?]
    | deliveryReport status message =>
      simp [handle, handleInfo, Handled.effects, callCallback, hcb, Message.report?, Action.passed?]
    | stats stats => rfl
    | other info => rfl

/-! ## Stages of a run -/

/-- The process is shutting down for this reason, or has. -/
def Ctl.leaves (reason : Term) : Ctl → Prop
  | .terminate r => r = reason
  | .waiting => reason = shutdown
  | .terminated (.exit r) => r = reason
  | _ => False

/-- What the process has done with the messages that have arrived before `:client_stopped`. -/
inductive Stage (ls : List Label) (p : Process) : Prop where
  /-- It has handled the first of them; the rest is in its mailbox. -/
  | serving (handled : List Mail) : p.ctl = .loop → p.flushing = false →
      p.server.callback ≠ .undefined → (∀ l ∈ ls, l.isFlushed = false) →
      arrivals ls = handled ++ p.mailbox → (∀ reason, .exit reason ∉ handled) →
      p.passed = reports handled → Stage ls p
  /-- It has handled those before the exit signal, and handles no other. -/
  | leaving (handled rest : List Mail) (reason : Term) : p.ctl.leaves reason →
      arrivals ls = handled ++ .exit reason :: rest → (∀ reason, .exit reason ∉ handled) →
      p.passed = reports handled → Stage ls p
  /-- A callback has raised. -/
  | crashed (handled rest : List Mail) : p.ctl = .terminated .crash →
      arrivals ls = handled ++ rest → p.passed = reports handled → Stage ls p

theorem passed_append {p q : Process} (as : List Action) (h : q.trace = p.trace ++ as) :
    q.passed = p.passed ++ as.filterMap Action.passed? := by
  rw [Process.passed, h, List.filterMap_append]
  rfl

theorem reports_append (ms ms' : List Mail) : reports (ms ++ ms') = reports ms ++ reports ms' :=
  List.filterMap_append

theorem arrivals_concat_of_not_flushed {ls : List Label} (h : ∀ l ∈ ls, l.isFlushed = false)
    (l : Label) : arrivals (ls ++ [l]) = arrivals ls ++ l.arrival?.toList := by
  have hall : ∀ l ∈ ls, (!l.isFlushed) = true := fun l hl => by rw [h l hl]; rfl
  unfold arrivals
  rw [List.takeWhile_append_of_pos hall, List.takeWhile_eq_self_iff.2 hall, List.filterMap_append]
  cases l <;> rfl

theorem arrivals_concat (ls : List Label) (l : Label) :
    ∃ more, arrivals (ls ++ [l]) = arrivals ls ++ more := by
  have hprefix : arrivals ls <+: arrivals (ls ++ [l]) := by
    apply List.IsPrefix.filterMap
    rw [List.takeWhile_append]
    split
    · exact (List.takeWhile_prefix _).trans (List.prefix_append _ _)
    · exact List.prefix_refl _
  obtain ⟨more, hmore⟩ := hprefix
  exact ⟨more, hmore.symm⟩

theorem Stage.leaving_concat {ls : List Label} {l : Label} {q : Process} {handled rest : List Mail}
    {reason : Term} (hctl : q.ctl.leaves reason)
    (harrivals : arrivals ls = handled ++ .exit reason :: rest)
    (hexit : ∀ reason, .exit reason ∉ handled) (hpassed : q.passed = reports handled) :
    Stage (ls ++ [l]) q := by
  obtain ⟨more, hmore⟩ := arrivals_concat ls l
  refine .leaving handled (rest ++ more) reason hctl ?_ hexit hpassed
  rw [hmore, harrivals, List.append_assoc]
  rfl

theorem Stage.crashed_concat {ls : List Label} {l : Label} {q : Process} {handled rest : List Mail}
    (hctl : q.ctl = .terminated .crash) (harrivals : arrivals ls = handled ++ rest)
    (hpassed : q.passed = reports handled) : Stage (ls ++ [l]) q := by
  obtain ⟨more, hmore⟩ := arrivals_concat ls l
  refine .crashed handled (rest ++ more) hctl ?_ hpassed
  rw [hmore, harrivals, List.append_assoc]

/-- The callback raises in the server loop, on the report at the head of the mailbox. -/
theorem raised_cases {p q : Process} (h : p.raised = some q) :
    ∃ status message rest, p.ctl = .loop ∧
      p.mailbox = .message (.info (.deliveryReport status message)) :: rest ∧
      q = ({ p with mailbox := rest }.act [.effect (.deliveryReport status message)]).crash := by
  unfold Process.raised at h
  split at h
  · next status message rest hloop hmail =>
    split_ifs at h
    exact ⟨status, message, rest, hloop, hmail, (Option.some.inj h).symm⟩
  · cases h

/-- `terminate` passes no report. -/
theorem Stage.leaving_terminate {ls : List Label} {p : Process} {l : Label}
    {handled rest : List Mail} {reason : Term}
    (harrivals : arrivals ls = handled ++ .exit reason :: rest)
    (hexit : ∀ reason, .exit reason ∉ handled) (hpassed : p.passed = reports handled) :
    Stage (ls ++ [l]) (p.terminate reason) := by
  have hfree : (p.act [.free]).passed = reports handled := by
    rw [passed_append [.free] rfl, hpassed]
    exact List.append_nil _
  unfold Process.terminate
  simp only
  split_ifs with hr
  · split
    · exact .crashed_concat rfl harrivals hfree
    · have hwaits : Ctl.waiting.leaves reason := hr
      refine .leaving_concat hwaits harrivals hexit ?_
      rw [← hfree]
      exact (passed_append [.cleanup p.server.ref] rfl).trans (List.append_nil _)
  · exact .leaving_concat rfl harrivals hexit hfree

/-- A process that is shutting down takes no report out of its mailbox. -/
theorem Stage.leaving_step {ls : List Label} {p q : Process} {l : Label} {handled rest : List Mail}
    {reason : Term} (hctl : p.ctl.leaves reason)
    (harrivals : arrivals ls = handled ++ .exit reason :: rest)
    (hexit : ∀ reason, .exit reason ∉ handled) (hpassed : p.passed = reports handled)
    (hstep : p.step l = some q) : Stage (ls ++ [l]) q := by
  cases l with
  | arrive m =>
    simp only [Process.step] at hstep
    split_ifs at hstep
    cases hstep
    exact .leaving_concat hctl harrivals hexit hpassed
  | raised =>
    obtain ⟨status, message, rest, hloop, -, -⟩ := raised_cases hstep
    rw [hloop] at hctl
    exact hctl.elim
  | flushed =>
    simp only [Process.step] at hstep
    split_ifs at hstep
    cases hstep
    exact .leaving_concat hctl harrivals hexit hpassed
  | next =>
    simp only [Process.step, Process.next] at hstep
    cases hc : p.ctl with
    | loop =>
      rw [hc] at hctl
      exact hctl.elim
    | terminated ended => simp [hc] at hstep
    | waiting =>
      simp only [hc] at hstep hctl
      split_ifs at hstep
      cases hstep
      exact .leaving_concat hctl.symm harrivals hexit hpassed
    | terminate r =>
      simp only [hc] at hstep hctl
      obtain rfl : r = reason := hctl
      cases hstep
      exact .leaving_terminate harrivals hexit hpassed

theorem reports_concat (ms : List Mail) (m : Mail) :
    reports (ms ++ [m]) = reports ms ++ m.report?.toList := by
  rw [reports_append]
  cases h : m.report? <;> simp [reports, h]

theorem arrivals_next {ls : List Label} (hls : ∀ l ∈ ls, l.isFlushed = false) :
    arrivals (ls ++ [.next]) = arrivals ls :=
  (arrivals_concat_of_not_flushed hls .next).trans (List.append_nil _)

theorem not_flushed_concat {ls : List Label} {l : Label} (hls : ∀ l ∈ ls, l.isFlushed = false)
    (hl : l.isFlushed = false) : ∀ l' ∈ ls ++ [l], l'.isFlushed = false :=
  List.forall_mem_append.2 ⟨hls, List.forall_mem_singleton.2 hl⟩

theorem handled_of_none {p : Process} {h : Handled State Term Effect} (hnext : h.next = none) :
    p.handled h = (p.act (h.effects.map .effect)).crash := by
  simp only [Process.handled, hnext]

theorem handled_of_some {p : Process} {h : Handled State Term Effect} {server : State}
    (hnext : h.next = some server) :
    p.handled h = { p.act (h.effects.map .effect) with server } := by
  simp only [Process.handled, hnext]

/-- A message that the server loop gives to a callback. -/
theorem Stage.handled_step {ls : List Label} {p : Process} {handled rest : List Mail} {m : Mail}
    (msg : Message) (hloop : p.ctl = .loop) (hflushing : p.flushing = false)
    (hcb : p.server.callback ≠ .undefined) (hls : ∀ l ∈ ls, l.isFlushed = false)
    (harrivals : arrivals ls = handled ++ m :: rest) (hexit : ∀ reason, .exit reason ∉ handled)
    (hpassed : p.passed = reports handled) (hm : ∀ reason, .exit reason ≠ m)
    (hreport : m.report? = msg.report?) :
    Stage (ls ++ [.next]) ({ p with mailbox := rest }.handled (handle p.server msg)) := by
  have hsplit : arrivals (ls ++ [.next]) = (handled ++ [m]) ++ rest := by
    rw [arrivals_next hls, harrivals, List.append_assoc]
    rfl
  have hpassed' : ({ p with mailbox := rest }.act
      ((handle p.server msg).effects.map .effect)).passed = reports (handled ++ [m]) := by
    rw [passed_append (p := p) _ rfl, passed_handle hcb, hpassed, reports_concat, hreport]
  cases hnext : (handle p.server msg).next with
  | none =>
    rw [handled_of_none hnext]
    refine .crashed (handled ++ [m]) rest rfl hsplit ?_
    rw [← hpassed']
    exact (passed_append [.free] rfl).trans (List.append_nil _)
  | some server =>
    rw [handled_of_some hnext]
    refine .serving (handled ++ [m]) hloop hflushing ?_ (not_flushed_concat hls rfl) hsplit ?_
      hpassed'
    · rw [callback_of_handle hnext]
      exact hcb
    · intro reason hmem
      rcases List.mem_append.1 hmem with h | h
      · exact hexit reason h
      · exact hm reason (List.mem_singleton.1 h)

theorem next_cons {p : Process} (hloop : p.ctl = .loop) {m : Mail} {rest : List Mail}
    (hmail : p.mailbox = m :: rest) : p.next = some ({ p with mailbox := rest }.receive m) := by
  simp [Process.next, hloop, hmail]

/-- The server loop takes a message from the mailbox. -/
theorem Stage.received {ls : List Label} {p : Process} {handled rest : List Mail} {m : Mail}
    (hloop : p.ctl = .loop) (hflushing : p.flushing = false)
    (hcb : p.server.callback ≠ .undefined) (hls : ∀ l ∈ ls, l.isFlushed = false)
    (harrivals : arrivals ls = handled ++ m :: rest) (hexit : ∀ reason, .exit reason ∉ handled)
    (hpassed : p.passed = reports handled) :
    Stage (ls ++ [.next]) ({ p with mailbox := rest }.receive m) := by
  cases m with
  | message msg =>
    exact .handled_step msg hloop hflushing hcb hls harrivals hexit hpassed nofun rfl
  | clientStopped =>
    exact .handled_step (.info (.other (.atom "client_stopped"))) hloop hflushing hcb hls harrivals
      hexit hpassed nofun rfl
  | cast =>
    refine .serving (handled ++ [.cast]) hloop hflushing hcb (not_flushed_concat hls rfl) ?_ ?_ ?_
    · rw [arrivals_next hls, harrivals, List.append_assoc]
      rfl
    · simpa using hexit
    · rw [reports_concat]
      exact hpassed.trans (List.append_nil _).symm
  | exit reason =>
    refine .leaving handled rest reason rfl ?_ hexit hpassed
    rw [arrivals_next hls, harrivals]

/-- A process that has not taken the exit signal. -/
theorem Stage.serving_step {ls : List Label} {p q : Process} {l : Label} {handled : List Mail}
    (hloop : p.ctl = .loop) (hflushing : p.flushing = false)
    (hcb : p.server.callback ≠ .undefined) (hls : ∀ l ∈ ls, l.isFlushed = false)
    (harrivals : arrivals ls = handled ++ p.mailbox) (hexit : ∀ reason, .exit reason ∉ handled)
    (hpassed : p.passed = reports handled) (hstep : p.step l = some q) :
    Stage (ls ++ [l]) q := by
  cases l with
  | arrive m =>
    simp only [Process.step] at hstep
    split_ifs at hstep
    cases hstep
    refine .serving handled hloop hflushing hcb (not_flushed_concat hls rfl) ?_ hexit hpassed
    rw [arrivals_concat_of_not_flushed hls, harrivals, List.append_assoc]
    rfl
  | flushed =>
    simp only [Process.step, hflushing] at hstep
    cases hstep
  | raised =>
    obtain ⟨status, message, rest, -, hmail, rfl⟩ := raised_cases hstep
    refine .crashed (handled ++ [.message (.info (.deliveryReport status message))]) rest rfl ?_ ?_
    · rw [arrivals_concat_of_not_flushed hls, harrivals, hmail]
      simp [Label.arrival?]
    · rw [reports_concat, ← hpassed]
      exact passed_append [.effect (.deliveryReport status message), .free]
        (List.append_assoc ..)
  | next =>
    cases hmail : p.mailbox with
    | nil => simp [Process.step, Process.next, hloop, hmail] at hstep
    | cons m rest =>
      obtain rfl := Option.some.inj ((next_cons hloop hmail).symm.trans hstep)
      rw [hmail] at harrivals
      exact .received hloop hflushing hcb hls harrivals hexit hpassed

/-- **A step of the process.** -/
theorem Stage.step {ls : List Label} {p q : Process} {l : Label} (h : Stage ls p)
    (hstep : p.step l = some q) : Stage (ls ++ [l]) q := by
  cases h with
  | serving handled hloop hflushing hcb hls harrivals hexit hpassed =>
    exact .serving_step hloop hflushing hcb hls harrivals hexit hpassed hstep
  | leaving handled rest reason hctl harrivals hexit hpassed =>
    exact .leaving_step hctl harrivals hexit hpassed hstep
  | crashed handled rest hctl harrivals hpassed =>
    cases l with
    | arrive m =>
      simp only [Process.step] at hstep
      split_ifs at hstep
      cases hstep
      exact .crashed_concat hctl harrivals hpassed
    | next => simp [Process.step, Process.next, hctl] at hstep
    | raised => simp [Process.step, Process.raised, hctl] at hstep
    | flushed =>
      simp only [Process.step] at hstep
      split_ifs at hstep
      cases hstep
      exact .crashed_concat hctl harrivals hpassed

/-! ## Runs -/

theorem stage_of_run {s : State} (hcb : s.callback ≠ .undefined) {ls : List Label} {p : Process}
    (hrun : run Process.step (.start s) ls = some p) : Stage ls p := by
  refine run_history (P := Stage) ?_ (fun ls p l q h hstep => h.step hstep) hrun
  exact .serving [] rfl rfl hcb nofun rfl nofun rfl

/-- **No report is passed twice or out of order.** In every run, the reports passed to the callback
are the first of those sent. -/
theorem passed_prefix {s : State} (hcb : s.callback ≠ .undefined) {ls : List Label} {p : Process}
    (hrun : run Process.step (.start s) ls = some p) : p.passed <+: reports (arrivals ls) := by
  have hprefix {handled rest : List Mail} (harrivals : arrivals ls = handled ++ rest)
      (hpassed : p.passed = reports handled) : p.passed <+: reports (arrivals ls) := by
    rw [harrivals, hpassed, reports_append]
    exact List.prefix_append _ _
  cases stage_of_run hcb hrun with
  | serving handled _ _ _ _ harrivals _ hpassed => exact hprefix harrivals hpassed
  | leaving handled rest reason _ harrivals _ hpassed => exact hprefix harrivals hpassed
  | crashed handled rest _ harrivals hpassed => exact hprefix harrivals hpassed

/-- The first exit signal decides whether a report is late. -/
theorem noneLate_iff {ls : List Label} {handled rest : List Mail} {reason : Term}
    (harrivals : arrivals ls = handled ++ .exit reason :: rest)
    (hexit : ∀ reason, .exit reason ∉ handled) : NoneLate ls ↔ reports rest = [] := by
  refine ⟨fun h => h handled reason rest harrivals, fun h pre r post hsplit => ?_⟩
  rw [harrivals] at hsplit
  rcases List.append_eq_append_iff.1 hsplit with ⟨more, rfl, hmore⟩ | ⟨more, rfl, hmore⟩
  · -- the signal of `hsplit` is the first one, or behind it
    cases more with
    | nil =>
      obtain ⟨-, rfl⟩ := List.cons.inj hmore
      exact h
    | cons m more =>
      obtain ⟨-, rfl⟩ := List.cons.inj hmore
      have hnil : reports more ++ reports (.exit r :: post) = [] :=
        (reports_append more _).symm.trans h
      exact (List.append_eq_nil_iff.1 hnil).2
  · cases more with
    | nil =>
      obtain ⟨-, rfl⟩ := List.cons.inj hmore
      exact h
    | cons m more =>
      obtain ⟨rfl, -⟩ := List.cons.inj hmore
      exact (hexit r (by simp)).elim

/-- **No report is lost on a shutdown, exactly when none is late.** In every run of a producer with
a delivery report callback that ends on a shutdown, every report sent before `:client_stopped` has
been passed to the callback once, in order, exactly when none of them was sent behind the exit
signal. -/
theorem passed_eq_sent_iff {s : State} (hcb : s.callback ≠ .undefined) {ls : List Label}
    {p : Process} (hrun : run Process.step (.start s) ls = some p)
    (hend : p.ctl = .terminated (.exit shutdown)) :
    p.passed = reports (arrivals ls) ↔ NoneLate ls := by
  cases stage_of_run hcb hrun with
  | serving handled hloop =>
    rw [hloop] at hend
    cases hend
  | crashed handled rest hcrash =>
    rw [hcrash] at hend
    cases hend
  | leaving handled rest reason _ harrivals hexit hpassed =>
    have hsent : reports (arrivals ls) = reports handled ++ reports rest := by
      rw [harrivals, reports_append]
      rfl
    rw [noneLate_iff harrivals hexit, hsent, hpassed]
    exact List.self_eq_append_right

/-- A producer with a callback, and no message in its local queue. -/
def withCallback : State where
  clientId := "client"
  ref := .ref 0
  callback := .func 1 2
  statsCb := .undefined
  overflowMethod := localDiskQueue
  pqueue := []
  pqueueSch := false

/-- A report of a message that has been delivered. -/
def delivered : Mail := .message (.info (.deliveryReport .ok (.binary [109])))

/-- A shutdown during which a message is delivered. -/
def lateRun : List Label :=
  [.arrive (.exit shutdown), .next, .next, .arrive delivered, .flushed, .next]

/-- The report of a message that is delivered while the client is flushed is lost. -/
theorem late_report_lost : ¬ ∀ (s : State) (ls : List Label) (p : Process),
    s.callback ≠ .undefined → run Process.step (.start s) ls = some p →
      p.ctl = .terminated (.exit shutdown) → p.passed = reports (arrivals ls) := by
  intro h
  have hlost := h withCallback lateRun _ (by decide) rfl rfl
  cases hlost

/-- A shutdown after the report. -/
def timelyRun : List Label :=
  [.arrive delivered, .arrive (.exit shutdown), .next, .next, .next, .flushed, .next]

theorem passed_eq_sent_iff_sample :
    ∃ p, run Process.step (.start withCallback) timelyRun = some p ∧
      (p.passed = reports (arrivals timelyRun) ↔ NoneLate timelyRun) :=
  ⟨_, rfl, passed_eq_sent_iff (s := withCallback) (by decide) rfl rfl⟩

end Exrdkafka.Producer
