import Exrdkafka.Consumer.Processing

/-!
# The reference fold of the processing

What the processing of a list of messages comes to, stated apart from its code, as a fold over the
answers of the callback: `Fold` is how far it has come, and `Fold.answer` is what one answer
adds. A list handled one by one is a list of items, one for each message; a batch is one item with
all of them.

* `Refines`: the calls a process has made are a prefix of the calls of the fold, and a process that
  has returned has made all of them and returns the state of the fold.
* `processing_refines`: every run of the processing refines the fold, with any mail coming, and for
  every list of answers there is a run that makes the calls of the fold.
-/

namespace Exrdkafka.Consumer

open Nif Machine

/-! ## The fold -/

/-- A unit of work: the messages of one call of the callback, and where the offset is stored. -/
structure Item where
  messages : List Message
  topic : List UInt8
  partition : ℤ
  offset : ℤ

/-- A message handled on its own. -/
def Item.single (m : Message) : Item := ⟨[m], m.topic, m.partition, m.offset⟩

/-- A batch. -/
def Item.batch (msgs : List Message) (last : BatchOffset) : Item :=
  ⟨msgs, last.1, last.2.1, last.2.2⟩

/-- The call that stores the offset of an item. -/
def Item.store (x : Item) : Call := .offsetStore x.topic x.partition x.offset

/-- The items of a list of messages. -/
def State.items (s : State) : List Item :=
  match s.dispatchMode with
  | .oneByOne => s.messages.map .single
  | .batch => [.batch s.messages (s.topicName, s.partition, s.lastOffset)]

/-- The wait before the retry that follows `tries` failed attempts and one more: 0, 500, 1000, 2000,
then always 4000 ms. -/
def waitMs (tries : ℕ) : ℕ := [0, 500, 1000, 2000].getD tries 4000

/-- A wait; no time is not waited for. -/
def waitCalls (tries : ℕ) : List Call := if waitMs tries = 0 then [] else [.sleep (waitMs tries)]

/-- How far the processing has come: the calls made, the items left, the state of the callback, and
the failed attempts at the first item left. -/
structure Fold where
  calls : List Call
  rest : List Item
  cbState : Term
  tries : ℕ

/-- **One answer of the callback.** On success the offset is stored and the next item is due; any
other answer is followed by a wait, and the item is due again. -/
def Fold.answer (p : Fold) (a : Answer) : Fold :=
  match p.rest with
  | [] => p
  | x :: xs =>
    let call := Call.handleMessage x.messages p.cbState a
    match a with
    | .ok new => ⟨p.calls ++ [call, x.store], xs, new, 0⟩
    | .error _ new => ⟨p.calls ++ call :: waitCalls p.tries, x :: xs, new, p.tries + 1⟩
    | .other _ => ⟨p.calls ++ call :: waitCalls p.tries, x :: xs, p.cbState, p.tries + 1⟩

/-- **The reference fold** over the answers of the callback. -/
def reference (s : State) (answers : List Answer) : Fold :=
  answers.foldl Fold.answer ⟨[], s.items, s.cbState, 0⟩

/-- The answer a step brings. -/
def Label.answer? : Label → Option Answer
  | .answered a => some a
  | _ => none

/-- The answers of the callback in a run. -/
def answersOf (ls : List Label) : List Answer := ls.filterMap Label.answer?

/-! ## Back-off -/

theorem exponentialBackoff_waitMs (tries : ℕ) :
    exponentialBackoff (waitMs tries) = (waitMs tries, waitMs (tries + 1)) := by
  rcases tries with _ | _ | _ | _ | tries <;> rfl

/-- The place in the code after a wait. -/
def afterWait (tries : ℕ) (next : Ctl) : Ctl := sleepThen (waitMs tries) next

theorem retryOneByOne_waitMs (msgs : List Message) (tries : ℕ) (cbState : Term) :
    retryOneByOne msgs (waitMs tries) cbState =
      afterWait tries (.processEventsOneByOne msgs (waitMs (tries + 1)) cbState) := by
  rw [retryOneByOne, exponentialBackoff_waitMs]
  rfl

theorem retryBatch_waitMs (msgs : List Message) (last : BatchOffset) (tries : ℕ) (cbState : Term) :
    retryBatch msgs last (waitMs tries) cbState =
      afterWait tries (.processEventsBatch msgs last (waitMs (tries + 1)) cbState) := by
  rw [retryBatch, exponentialBackoff_waitMs]
  rfl

/-! ## Places in the code -/

/-- The process is at `ctl` when the fold has come to these items, this state and these tries, and
the calls `due` of the fold are still to be made. -/
inductive At : Ctl → List Call → List Item → Term → ℕ → Prop where
  | oneByOne (msgs : List Message) (cbState : Term) (tries : ℕ) :
      At (.processEventsOneByOne msgs (waitMs tries) cbState) [] (msgs.map .single) cbState tries
  | handleMessage (h : Message) (t : List Message) (cbState : Term) (tries : ℕ) :
      At (.handleMessage h t (waitMs tries) cbState) [] (.single h :: t.map .single) cbState tries
  | commitOffset (h : Message) (t : List Message) (cbState : Term) :
      At (.commitOffset h t cbState) [.offsetStore h.topic h.partition h.offset]
        (t.map .single) cbState 0
  | batch (msgs : List Message) (last : BatchOffset) (cbState : Term) (tries : ℕ) :
      At (.processEventsBatch msgs last (waitMs tries) cbState) [] [.batch msgs last] cbState tries
  | storeBatch (topic : List UInt8) (partition offset : ℤ) (cbState : Term) :
      At (.storeBatch (topic, partition, offset) cbState) [.offsetStore topic partition offset] []
        cbState 0
  | backoff (msgs : List Message) (last : BatchOffset) (cbState : Term) (tries : ℕ) :
      At (.handleBackoffOrStop msgs last (waitMs tries) cbState) (waitCalls tries)
        [.batch msgs last] cbState (tries + 1)
  | sleeping {next : Ctl} {items : List Item} {cbState : Term} {tries : ℕ} (ms : ℕ) :
      At next [] items cbState tries → At (.sleeping ms next) [.sleep ms] items cbState tries

theorem At.afterWait {next : Ctl} {items : List Item} {cbState : Term} {tries : ℕ} (before : ℕ)
    (h : At next [] items cbState tries) :
    At (afterWait before next) (waitCalls before) items cbState tries := by
  unfold Consumer.afterWait sleepThen waitCalls
  split
  · exact h
  · exact .sleeping _ h

/-! ## Following the fold -/

/-- The process is somewhere in the processing, and the fold has come to `p`: the calls of the fold
are those made and those due. -/
structure Following (made : List Call) (p : Fold) (w : World) (done due : List Call) :
    Prop where
  place : At w.ctl due p.rest p.cbState p.tries
  trace : w.trace = made ++ done
  calls : done ++ due = p.calls

/-- Where an answer for a message takes the process, and the fold. -/
theorem at_afterMessage (p : Fold) {h : Message} {t : List Message}
    (hrest : p.rest = .single h :: t.map .single) (a : Answer) :
    ∃ due, At (afterMessage h t (waitMs p.tries) p.cbState a) due (p.answer a).rest
      (p.answer a).cbState (p.answer a).tries ∧
      (p.answer a).calls = p.calls ++ .handleMessage [h] p.cbState a :: due := by
  obtain ⟨calls, rest, cbState, tries⟩ := p
  subst hrest
  have hretry (new : Term) : At (retryOneByOne (h :: t) (waitMs tries) new) (waitCalls tries)
      (.single h :: t.map .single) new (tries + 1) := by
    rw [retryOneByOne_waitMs]
    exact (At.oneByOne (h :: t) new (tries + 1)).afterWait tries
  cases a with
  | ok new => exact ⟨_, .commitOffset h t new, rfl⟩
  | error reason new => exact ⟨_, hretry new, rfl⟩
  | other answer => exact ⟨_, hretry cbState, rfl⟩

/-- Where an answer for a batch takes them. -/
theorem at_afterBatch (p : Fold) {msgs : List Message} {last : BatchOffset}
    (hrest : p.rest = [.batch msgs last]) (a : Answer) :
    ∃ due, At (afterBatch msgs last (waitMs p.tries) p.cbState a) due (p.answer a).rest
      (p.answer a).cbState (p.answer a).tries ∧
      (p.answer a).calls = p.calls ++ .handleMessage msgs p.cbState a :: due := by
  obtain ⟨calls, rest, cbState, tries⟩ := p
  subst hrest
  cases a with
  | ok new =>
    obtain ⟨topic, partition, offset⟩ := last
    exact ⟨_, .storeBatch topic partition offset new, rfl⟩
  | error reason new => exact ⟨_, .backoff msgs last new tries, rfl⟩
  | other answer => exact ⟨_, .backoff msgs last cbState tries, rfl⟩

/-- An answer of the callback takes the process and the fold on. -/
theorem Following.answered {made : List Call} {p : Fold} {w w' : World} {done due : List Call}
    {a : Answer} (h : Following made p w done due) (hstep : Proceeds w (.answered a) w') :
    ∃ done' due', Following made (p.answer a) w' done' due' := by
  obtain ⟨hplace, htrace, hcalls⟩ := h
  have hcall (c : Call) : w.trace ++ [c] = made ++ (done ++ [c]) := by
    rw [htrace, List.append_assoc]
  have hdone {c : Call} {due' : List Call} (hdue : due = [])
      (hnew : (p.answer a).calls = p.calls ++ c :: due') :
      done ++ [c] ++ due' = (p.answer a).calls := by
    rw [hnew, ← hcalls, hdue, List.append_nil, List.append_assoc]
    rfl
  obtain ⟨calls, rest, cbState, tries⟩ := p
  cases hstep with
  | answered a hc =>
    rw [hc] at hplace
    cases hplace
    obtain ⟨due, hat, hnew⟩ := at_afterMessage ⟨calls, _, cbState, tries⟩ rfl a
    exact ⟨_, due, hat, hcall _, hdone rfl hnew⟩
  | answeredBatch a hc =>
    rw [hc] at hplace
    cases hplace
    obtain ⟨due, hat, hnew⟩ := at_afterBatch ⟨calls, _, cbState, tries⟩ rfl a
    exact ⟨_, due, hat, hcall _, hdone rfl hnew⟩

/-- What the processing has come to: it is going on, it has returned, it was stopped, or it ended
otherwise. -/
inductive Stage (made : List Call) (p : Fold) (w : World) : Prop where
  | going {done due : List Call} : Following made p w done due → Stage made p w
  | returned : w.ctl = .loop → p.rest = [] → w.trace = made ++ p.calls →
      w.state.cbState = p.cbState → Stage made p w
  | stopped {sender tag : ℕ} {calls : List Call} : w.ctl = .terminated .normal →
      calls <+: p.calls → w.trace = made ++ calls ++ [.stopped sender tag] → Stage made p w
  | ended {reason : ExitReason} {calls : List Call} : w.ctl = .terminated reason →
      (reason = .badMatch ∨ ∃ t, reason = .unexpected (.triple t)) → calls <+: p.calls →
      w.trace = made ++ calls → Stage made p w

/-- A message that `recv_stop` takes ends the processing. -/
theorem stage_interrupted {made calls : List Call} {p : Fold} {w : World} {m : Mail}
    {rest : List Mail} (hcalls : calls <+: p.calls) (htrace : w.trace = made ++ calls)
    (hm : m.isTriple = true) : Stage made p (interrupted { w with mailbox := rest } m) := by
  cases m with
  | stop sender tag =>
    have htaken : (handleStop { w with mailbox := rest } sender tag).trace =
        made ++ calls ++ [.stopped sender tag] := by
      rw [← htrace]
      rfl
    exact .stopped rfl hcalls htaken
  | triple t => exact .ended rfl (.inr ⟨t, rfl⟩) hcalls htrace
  | self m => cases hm
  | other m => cases hm

/-- A step that the process takes itself, or the store of an offset. -/
theorem Following.proceeds {made done due : List Call} {p : Fold} {w w' : World} {l : Label}
    (h : Following made p w done due) (hl : l.answer? = none) (hstep : Proceeds w l w') :
    Stage made p w' := by
  obtain ⟨hplace, htrace, hcalls⟩ := h
  obtain ⟨calls, rest, cbState, tries⟩ := p
  have hcall (c : Call) : w.trace ++ [c] = made ++ (done ++ [c]) := by
    rw [htrace, List.append_assoc]
  cases hstep with
  | arrived => exact .going ⟨hplace, htrace, hcalls⟩
  | expired => exact .going ⟨hplace, htrace, hcalls⟩
  | finished hc =>
    rw [hc] at hplace
    cases hplace
    obtain rfl : done = calls := (List.append_nil _).symm.trans hcalls
    exact .returned rfl rfl htrace rfl
  | begun hc hnone =>
    rw [hc] at hplace
    cases hplace
    exact .going ⟨.handleMessage .., htrace, hcalls⟩
  | @retried msgs last backoff s hc hnone =>
    rw [hc] at hplace
    cases hplace with
    | backoff msgs last _ tries =>
      refine .going ⟨?_, htrace, hcalls⟩
      show At (retryBatch msgs last (waitMs tries) cbState) _ _ _ _
      rw [retryBatch_waitMs]
      exact (At.batch msgs last cbState (tries + 1)).afterWait tries
  | interrupted hlooks hrecv =>
    exact stage_interrupted ⟨due, hcalls⟩ htrace (recvStop_eq_some hrecv).1
  | slept hc =>
    rw [hc] at hplace
    cases hplace with
    | sleeping ms hnext =>
      exact .going ⟨hnext, hcall _, (List.append_nil _).trans hcalls⟩
  | answered a => cases hl
  | answeredBatch a => cases hl
  | stored ok hc =>
    rw [hc] at hplace
    cases hplace
    cases ok with
    | true => exact .going ⟨.oneByOne _ _ 0, hcall _, (List.append_nil _).trans hcalls⟩
    | false => exact .ended rfl (.inl rfl) (hcalls ▸ List.prefix_refl _) (hcall _)
  | storedBatch hc =>
    rw [hc] at hplace
    cases hplace
    refine .returned rfl rfl ?_ rfl
    rw [← hcalls]
    exact hcall _
  | storeFailed hc =>
    rw [hc] at hplace
    cases hplace
    exact .ended rfl (.inl rfl) (hcalls ▸ List.prefix_refl _) (hcall _)

/-! ## Runs refine the fold -/

theorem at_processEvents (s : State) : At (processEvents s) [] s.items s.cbState 0 := by
  cases hmode : s.dispatchMode with
  | oneByOne =>
    simp only [processEvents, State.items, hmode]
    exact .oneByOne s.messages s.cbState 0
  | batch =>
    simp only [processEvents, State.items, hmode]
    exact .batch s.messages (s.topicName, s.partition, s.lastOffset) s.cbState 0

theorem Stage.processing {made : List Call} {p : Fold} {w : World} (h : Stage made p w)
    (hctl : w.ctl.processing = true) : ∃ done due, Following made p w done due := by
  cases h with
  | @going done due hfollowing => exact ⟨done, due, hfollowing⟩
  | returned hend | stopped hend | ended hend =>
    rw [hend] at hctl
    cases hctl

theorem answersOf_concat (ls : List Label) (l : Label) :
    answersOf (ls ++ [l]) = answersOf ls ++ l.answer?.toList := by
  cases h : l.answer? <;> simp [answersOf, h]

/-- In every run of the processing, the process has come as far as the fold. -/
theorem stage_of_run {w₀ w : World} (hw : w₀.ctl = processEvents w₀.state) {ls : List Label}
    (hrun : run procStep w₀ ls = some w) :
    Stage w₀.trace (reference w₀.state (answersOf ls)) w := by
  refine run_history (P := fun ls w => Stage w₀.trace (reference w₀.state (answersOf ls)) w)
    ?_ (fun ls t l u ht hstep => ?_) hrun
  · have hat : At w₀.ctl [] w₀.state.items w₀.state.cbState 0 := hw ▸ at_processEvents w₀.state
    have hstart : Following w₀.trace (reference w₀.state []) w₀ [] [] :=
      ⟨hat, (List.append_nil _).symm, rfl⟩
    exact .going hstart
  · obtain ⟨hctl, hproceeds⟩ := proceeds_of_step hstep
    obtain ⟨done, due, hfollowing⟩ := ht.processing hctl
    rw [answersOf_concat, reference, List.foldl_append]
    cases hl : l.answer? with
    | none => exact hfollowing.proceeds hl hproceeds
    | some a =>
      cases l with
      | answered b =>
        obtain rfl := Option.some.inj hl
        obtain ⟨done', due', hnext⟩ := hfollowing.answered hproceeds
        exact .going hnext
      | _ => cases hl

/-! ## Every list of answers has a run -/

/-- The call of the callback that the process is about to make. -/
def Ctl.asks : Ctl → Option (List Message × Term)
  | .handleMessage h _ _ cbState => some ([h], cbState)
  | .processEventsBatch msgs _ _ cbState => some (msgs, cbState)
  | _ => none

theorem At.processing {ctl : Ctl} {due : List Call} {items : List Item} {cbState : Term}
    {tries : ℕ} (h : At ctl due items cbState tries) : ctl.processing = true := by
  induction h with
  | sleeping ms _ ih => exact ih
  | _ => rfl

/-- The process at `w` has settled: it has returned, or it is about to call the callback. -/
inductive Settled (w : World) (items : List Item) (cbState : Term) (tries : ℕ) : Prop where
  | returned : items = [] → w.ctl = .loop → w.state.cbState = cbState →
      Settled w items cbState tries
  | asks {x : Item} {xs : List Item} : items = x :: xs → w.ctl.asks = some (x.messages, cbState) →
      At w.ctl [] items cbState tries → Settled w items cbState tries

/-- `w` goes on to `w'` without an answer, with the calls given. -/
def GoesOn (w w' : World) (due : List Call) : Prop :=
  ∃ ls, run procStep w ls = some w' ∧ answersOf ls = [] ∧ w'.mailbox = w.mailbox ∧
    w'.trace = w.trace ++ due

theorem GoesOn.refl (w : World) : GoesOn w w [] :=
  ⟨[], rfl, rfl, rfl, (List.append_nil _).symm⟩

theorem GoesOn.cons {w u w' : World} {due calls : List Call} {l : Label}
    (hl : l.answer? = none) (hstep : procStep w l = some u) (hmail : u.mailbox = w.mailbox)
    (htrace : u.trace = w.trace ++ calls) (h : GoesOn u w' due) : GoesOn w w' (calls ++ due) := by
  obtain ⟨ls, hrun, hanswers, hmail', htrace'⟩ := h
  refine ⟨l :: ls, ?_, ?_, hmail'.trans hmail, ?_⟩
  · rw [run_cons, hstep]
    exact hrun
  · rw [answersOf, List.filterMap_cons_none hl]
    exact hanswers
  · rw [htrace', htrace, List.append_assoc]

/-- From a place in the code, with no stop in the mailbox, the process makes the calls that are due
and settles. -/
def Settles (ctl : Ctl) (due : List Call) (items : List Item) (cbState : Term) (tries : ℕ) : Prop :=
  ∀ w : World, w.ctl = ctl → (∀ m ∈ w.mailbox, m.isTriple = false) →
    ∃ w', GoesOn w w' due ∧ Settled w' items cbState tries

theorem settles_oneByOne (msgs : List Message) (cbState : Term) (tries : ℕ) :
    Settles (.processEventsOneByOne msgs (waitMs tries) cbState) [] (msgs.map .single) cbState
      tries := by
  intro w hctl hmail
  cases msgs with
  | nil =>
    have hstep : procStep w .next = some (finish w cbState) := by
      simp [procStep, hctl, Ctl.processing, step, internal]
    exact ⟨_, (GoesOn.refl _).cons rfl hstep rfl (List.append_nil _).symm, .returned rfl rfl rfl⟩
  | cons h t =>
    have hstep : procStep w .next = some (w.goto (.handleMessage h t (waitMs tries) cbState)) := by
      simp [procStep, hctl, Ctl.processing, step, internal, recvStop_of_not_triple hmail]
    exact ⟨_, (GoesOn.refl _).cons rfl hstep rfl (List.append_nil _).symm,
      .asks rfl rfl (.handleMessage ..)⟩

theorem settles_batch (msgs : List Message) (last : BatchOffset) (cbState : Term) (tries : ℕ) :
    Settles (.processEventsBatch msgs last (waitMs tries) cbState) [] [.batch msgs last] cbState
      tries := by
  intro w hctl _
  exact ⟨w, .refl w, .asks rfl (by rw [hctl]; rfl) (by rw [hctl]; exact .batch ..)⟩

theorem Settles.sleeping {next : Ctl} {items : List Item} {cbState : Term} {tries : ℕ}
    (h : Settles next [] items cbState tries) (hnext : next.processing = true) (ms : ℕ) :
    Settles (.sleeping ms next) [.sleep ms] items cbState tries := by
  intro w hctl hmail
  have hstep : procStep w .next = some ((w.call (.sleep ms)).goto next) := by
    simp [procStep, hctl, Ctl.processing, hnext, step, internal]
  obtain ⟨w', hgoes, hsettled⟩ := h ((w.call (.sleep ms)).goto next) rfl hmail
  exact ⟨w', hgoes.cons rfl hstep rfl rfl, hsettled⟩

theorem Settles.afterWait {next : Ctl} {items : List Item} {cbState : Term} {tries : ℕ}
    (h : Settles next [] items cbState tries) (hnext : next.processing = true) (before : ℕ) :
    Settles (afterWait before next) (waitCalls before) items cbState tries := by
  unfold Consumer.afterWait sleepThen waitCalls
  split
  · exact h
  · exact h.sleeping hnext _

theorem settles {ctl : Ctl} {due : List Call} {items : List Item} {cbState : Term} {tries : ℕ}
    (hat : At ctl due items cbState tries) : Settles ctl due items cbState tries := by
  induction hat with
  | oneByOne msgs cbState tries => exact settles_oneByOne msgs cbState tries
  | handleMessage h t cbState tries =>
    intro w hctl _
    exact ⟨w, .refl w, .asks rfl (by rw [hctl]; rfl) (by rw [hctl]; exact .handleMessage ..)⟩
  | commitOffset h t cbState =>
    intro w hctl hmail
    let u := (w.call (.offsetStore h.topic h.partition h.offset)).goto
      (.processEventsOneByOne t 0 cbState)
    have hstep : procStep w (.stored true) = some u := by
      simp [procStep, hctl, Ctl.processing, step, stored, u]
    obtain ⟨w', hgoes, hsettled⟩ := settles_oneByOne t cbState 0 u rfl hmail
    exact ⟨w', hgoes.cons rfl hstep rfl rfl, hsettled⟩
  | batch msgs last cbState tries => exact settles_batch msgs last cbState tries
  | storeBatch topic partition offset cbState =>
    intro w hctl hmail
    have hstep : procStep w (.stored true) =
        some (finish (w.call (.offsetStore topic partition offset)) cbState) := by
      simp [procStep, hctl, Ctl.processing, step, stored]
    exact ⟨_, (GoesOn.refl _).cons rfl hstep rfl rfl, .returned rfl rfl rfl⟩
  | backoff msgs last cbState tries =>
    intro w hctl hmail
    have hstep : procStep w .next =
        some (w.goto (retryBatch msgs last (waitMs tries) cbState)) := by
      simp [procStep, hctl, Ctl.processing, step, internal, recvStop_of_not_triple hmail]
    rw [retryBatch_waitMs] at hstep
    obtain ⟨w', hgoes, hsettled⟩ :=
      (settles_batch msgs last cbState (tries + 1)).afterWait rfl tries (w.goto _) rfl hmail
    exact ⟨w', hgoes.cons rfl hstep rfl (List.append_nil _).symm, hsettled⟩
  | sleeping ms hnext ih => exact ih.sleeping hnext.processing ms

theorem step_of_asks {w : World} {q : List Message × Term} (h : w.ctl.asks = some q) (a : Answer) :
    ∃ w', procStep w (.answered a) = some w' ∧ w'.mailbox = w.mailbox := by
  cases hctl : w.ctl with
  | handleMessage hd tl backoff cbState =>
    refine ⟨(w.call (.handleMessage [hd] cbState a)).goto (afterMessage hd tl backoff cbState a),
      ?_, rfl⟩
    cases a <;> simp [procStep, hctl, Ctl.processing, step, answered, afterMessage]
  | processEventsBatch msgs last backoff cbState =>
    refine ⟨(w.call (.handleMessage msgs cbState a)).goto (afterBatch msgs last backoff cbState a),
      ?_, rfl⟩
    cases a <;> simp [procStep, hctl, Ctl.processing, step, answered, afterBatch]
  | _ =>
    rw [hctl] at h
    cases h

/-- The run `ls` takes the answers in order, as far as they are asked for, makes the calls of the
fold, and has settled. -/
structure Completes (w₀ : World) (answers : List Answer) (ls : List Label) (w : World) : Prop where
  reached : run procStep w₀ ls = some w
  answered : answersOf ls <+: answers
  all : (reference w₀.state answers).rest ≠ [] → answersOf ls = answers
  mailbox : w.mailbox = w₀.mailbox
  trace : w.trace = w₀.trace ++ (reference w₀.state answers).calls
  settled : Settled w (reference w₀.state answers).rest (reference w₀.state answers).cbState
    (reference w₀.state answers).tries

theorem reference_concat (s : State) (answers : List Answer) (a : Answer) :
    reference s (answers ++ [a]) = (reference s answers).answer a := by
  rw [reference, List.foldl_append]
  rfl

theorem Completes.nil {w₀ : World} (hw : w₀.ctl = processEvents w₀.state)
    (hmail : ∀ m ∈ w₀.mailbox, m.isTriple = false) : ∃ ls w, Completes w₀ [] ls w := by
  have hat : At w₀.ctl [] w₀.state.items w₀.state.cbState 0 := hw ▸ at_processEvents w₀.state
  obtain ⟨w, ⟨ls, hrun, hnone, hbox, htrace⟩, hsettled⟩ := settles hat w₀ rfl hmail
  exact ⟨ls, w, hrun, ⟨[], by rw [hnone]; rfl⟩, fun _ => hnone, hbox, htrace, hsettled⟩

/-- One more answer. -/
theorem Completes.concat {w₀ w : World} {answers : List Answer} {ls : List Label}
    (h : Completes w₀ answers ls w) (hmail : ∀ m ∈ w₀.mailbox, m.isTriple = false) (a : Answer) :
    ∃ ls' w', Completes w₀ (answers ++ [a]) ls' w' := by
  obtain ⟨hrun, hanswers, hall, hbox, htrace, hsettled⟩ := h
  have hfold := reference_concat w₀.state answers a
  generalize reference w₀.state answers = p at hfold hall htrace hsettled
  cases hsettled with
  | returned hrest hctl hstate =>
    -- nothing is left, and no further answer is asked for
    have hdone : reference w₀.state (answers ++ [a]) = p := by
      rw [hfold, Fold.answer, hrest]
    refine ⟨ls, w, hrun, hanswers.trans (List.prefix_append _ _), fun hne => ?_, hbox, ?_, ?_⟩
    · rw [hdone] at hne
      exact absurd hrest hne
    · rw [hdone]
      exact htrace
    · rw [hdone]
      exact .returned hrest hctl hstate
  | @asks x xs hrest hask hat =>
    obtain ⟨u, hu, hubox⟩ := step_of_asks hask a
    have hfollowing : Following w₀.trace p w p.calls [] := ⟨hat, htrace, List.append_nil _⟩
    obtain ⟨done, due, hplace, hutrace, hcalls⟩ := hfollowing.answered (proceeds_of_step hu).2
    have humail : ∀ m ∈ u.mailbox, m.isTriple = false := by
      rw [hubox, hbox]
      exact hmail
    obtain ⟨w', ⟨ls', hrun', hnone, hbox', htrace'⟩, hsettled'⟩ := settles hplace u rfl humail
    have hanswered : answersOf (ls ++ .answered a :: ls') = answers ++ [a] := by
      have hcons : answersOf (.answered a :: ls') = a :: answersOf ls' := rfl
      have hsplit : answersOf (ls ++ .answered a :: ls') =
          answersOf ls ++ answersOf (.answered a :: ls') := List.filterMap_append
      rw [hsplit, hcons, hnone, hall (by rw [hrest]; exact nofun)]
    refine ⟨ls ++ .answered a :: ls', w', ?_, ?_, fun _ => hanswered, ?_, ?_, ?_⟩
    · rw [run_append, hrun]
      simpa [hu] using hrun'
    · rw [hanswered]
    · rw [hbox', hubox, hbox]
    · rw [htrace', hutrace, List.append_assoc, hcalls, hfold]
    · rw [hfold]
      exact hsettled'

/-- For every list of answers the process makes the calls of the fold, and settles. -/
theorem exists_completes {w₀ : World} (hw : w₀.ctl = processEvents w₀.state)
    (hmail : ∀ m ∈ w₀.mailbox, m.isTriple = false) (answers : List Answer) :
    ∃ ls w, Completes w₀ answers ls w := by
  induction answers using List.reverseRecOn with
  | nil => exact Completes.nil hw hmail
  | append_singleton answers a ih =>
    obtain ⟨ls, w, h⟩ := ih
    exact h.concat hmail a

/-! ## The processing refines the fold -/

/-- What the processing has come to at `w`, after these answers of the callback. -/
structure Refines (w₀ : World) (answers : List Answer) (w : World) : Prop where
  /-- A call of the callback is the next call of the fold. -/
  asks : ∀ msgs cbState, w.ctl.asks = some (msgs, cbState) →
    w.trace = w₀.trace ++ (reference w₀.state answers).calls ∧
      cbState = (reference w₀.state answers).cbState ∧
      ∃ x xs, (reference w₀.state answers).rest = x :: xs ∧ msgs = x.messages
  /-- `{:ok, state}` is returned when all items are done, with the state of the fold. -/
  returned : w.ctl = .loop → (reference w₀.state answers).rest = [] ∧
    w.trace = w₀.trace ++ (reference w₀.state answers).calls ∧
    w.state.cbState = (reference w₀.state answers).cbState
  /-- Until a stop is taken, the calls are a prefix of those of the fold. -/
  made : w.ctl ≠ .terminated .normal →
    ∃ calls, calls <+: (reference w₀.state answers).calls ∧ w.trace = w₀.trace ++ calls
  /-- When a stop has been taken, they still are, and the stop is answered. -/
  stopped : w.ctl = .terminated .normal → ∃ calls sender tag,
    calls <+: (reference w₀.state answers).calls ∧
      w.trace = w₀.trace ++ calls ++ [.stopped sender tag]
  /-- A stop that is pending at a look, with no other tuple of three elements before it, is taken.
  -/
  looks : w.ctl.looks = true → ∀ pre sender tag post,
    w.mailbox = pre ++ .stop sender tag :: post → (∀ m ∈ pre, m.isTriple = false) →
    procStep w .next = some (handleStop { w with mailbox := pre ++ post } sender tag)
  /-- Nothing else ends the processing, except for the store of an offset that fails and another
  tuple of three elements. -/
  ended : ∀ reason, w.ctl = .terminated reason →
    reason = .normal ∨ reason = .badMatch ∨ ∃ t, reason = .unexpected (.triple t)

/-- A look that finds a stop takes it. -/
theorem looks_stop {w : World} (hlooks : w.ctl.looks = true) {pre post : List Mail}
    {sender tag : ℕ} (hmail : w.mailbox = pre ++ .stop sender tag :: post)
    (hpre : ∀ m ∈ pre, m.isTriple = false) :
    procStep w .next = some (handleStop { w with mailbox := pre ++ post } sender tag) := by
  have hrecv : recvStop w.mailbox = some (.stop sender tag, pre ++ post) := by
    rw [hmail]
    clear hmail
    induction pre with
    | nil => rfl
    | cons m pre ih =>
      obtain ⟨hm, hpre⟩ := List.forall_mem_cons.1 hpre
      rw [List.cons_append, recvStop, if_neg (by simp [hm]), ih hpre]
      rfl
  cases hctl : w.ctl with
  | processEventsOneByOne msgs backoff cbState =>
    cases msgs with
    | nil =>
      rw [hctl] at hlooks
      cases hlooks
    | cons h t => simp [procStep, hctl, Ctl.processing, step, internal, hrecv, interrupted]
  | handleBackoffOrStop msgs last backoff cbState =>
    simp [procStep, hctl, Ctl.processing, step, internal, hrecv, interrupted]
  | _ =>
    rw [hctl] at hlooks
    cases hlooks

/-- The callback is about to be called only when nothing else of the fold is due. -/
theorem At.of_asks {ctl : Ctl} {due : List Call} {items : List Item} {cbState s : Term} {tries : ℕ}
    {msgs : List Message} (h : At ctl due items cbState tries) (hasks : ctl.asks = some (msgs, s)) :
    due = [] ∧ s = cbState ∧ ∃ x xs, items = x :: xs ∧ msgs = x.messages := by
  cases h <;> cases hasks <;> exact ⟨rfl, rfl, _, _, rfl, rfl⟩

theorem Following.refines {w₀ w : World} {answers : List Answer} {done due : List Call}
    (h : Following w₀.trace (reference w₀.state answers) w done due) : Refines w₀ answers w := by
  obtain ⟨hplace, htrace, hcalls⟩ := h
  have hctl := hplace.processing
  refine ⟨fun msgs cbState hasks => ?_, fun hend => ?_, fun _ => ⟨done, ⟨due, hcalls⟩, htrace⟩,
    fun hend => ?_, fun hlooks pre sender tag post => looks_stop hlooks, fun reason hend => ?_⟩
  · obtain ⟨rfl, hstate, hitem⟩ := hplace.of_asks hasks
    rw [List.append_nil] at hcalls
    rw [hcalls] at htrace
    exact ⟨htrace, hstate, hitem⟩
  all_goals
    rw [hend] at hctl
    cases hctl

theorem Stage.refines {w₀ w : World} {answers : List Answer}
    (h : Stage w₀.trace (reference w₀.state answers) w) : Refines w₀ answers w := by
  have hasks {ctl : Ctl} (hend : w.ctl = ctl) (hnone : ctl.asks = none) (msgs cbState)
      (h : w.ctl.asks = some (msgs, cbState)) : False := by
    rw [hend, hnone] at h
    cases h
  have hlooks {ctl : Ctl} (hend : w.ctl = ctl) (hnone : ctl.looks = false)
      (h : w.ctl.looks = true) : False := by
    rw [hend, hnone] at h
    cases h
  cases h with
  | going h => exact h.refines
  | returned hend hrest htrace hstate =>
    refine ⟨fun msgs cbState h => (hasks hend rfl _ _ h).elim, fun _ => ⟨hrest, htrace, hstate⟩,
      fun _ => ⟨_, List.prefix_refl _, htrace⟩, fun h => ?_, fun h => (hlooks hend rfl h).elim,
      fun reason h => ?_⟩
    all_goals
      rw [hend] at h
      cases h
  | @stopped sender tag calls hend hprefix htrace =>
    refine ⟨fun msgs cbState h => (hasks hend rfl _ _ h).elim, fun h => ?_,
      fun h => absurd hend h, fun _ => ⟨calls, sender, tag, hprefix, htrace⟩,
      fun h => (hlooks hend rfl h).elim, fun reason h => ?_⟩
    · rw [hend] at h
      cases h
    · rw [hend] at h
      exact .inl (Ctl.terminated.inj h).symm
  | @ended reason calls hend hreason hprefix htrace =>
    refine ⟨fun msgs cbState h => (hasks hend rfl _ _ h).elim, fun h => ?_,
      fun _ => ⟨calls, hprefix, htrace⟩, fun h => ?_, fun h => (hlooks hend rfl h).elim,
      fun reason' h => ?_⟩
    · rw [hend] at h
      cases h
    · rw [hend] at h
      obtain rfl := Ctl.terminated.inj h
      rcases hreason with h | ⟨t, h⟩ <;> cases h
    · rw [hend] at h
      obtain rfl := Ctl.terminated.inj h
      exact .inr hreason

/-- **The processing refines the fold.** In every run, with any mail coming and any answers of the
callback, the process has done what the fold over these answers says; and for every list of answers,
with no tuple of three elements in the mailbox, there is a run that takes them as far as they are
asked for and makes the calls of the fold. -/
theorem processing_refines {w₀ : World} (hw : w₀.ctl = processEvents w₀.state) :
    (∀ ls w, run procStep w₀ ls = some w → Refines w₀ (answersOf ls) w) ∧
      ((∀ m ∈ w₀.mailbox, m.isTriple = false) →
        ∀ answers, ∃ ls w, Completes w₀ answers ls w) :=
  ⟨fun _ _ hrun => (stage_of_run hw hrun).refines, exists_completes hw⟩

/-- A process that is about to handle a batch, with this mail in its mailbox. -/
def aboutToHandleBatch (mailbox : List Mail) : World :=
  let state : State := { (aboutToHandle mailbox).state with dispatchMode := .batch }
  { aboutToHandle mailbox with state, ctl := processEvents state }

/-- A stop that is pending when a batch is handed to the callback is not the result when the
callback takes the batch: there is no look for it. -/
theorem pending_stop_ignored : ¬ ∀ (w₀ w : World) (ls : List Label),
    w₀.ctl = processEvents w₀.state → run procStep w₀ ls = some w →
      (∃ sender tag, .stop sender tag ∈ w₀.mailbox) → w.ctl ≠ .loop := by
  intro h
  exact h (aboutToHandleBatch [.stop 1 2]) _ [.answered (.ok .nil), .stored true] rfl rfl
    ⟨1, 2, List.mem_singleton.2 rfl⟩ rfl

/-- A message that the callback first refuses. -/
theorem processing_refines_sample :
    (∀ ls w, run procStep (aboutToHandle [.other .nil]) ls = some w →
        Refines (aboutToHandle [.other .nil]) (answersOf ls) w) ∧
      ∃ ls w, Completes (aboutToHandle [.other .nil]) [.error .nil .nil, .ok .nil] ls w := by
  have hstart : (aboutToHandle [.other .nil]).ctl =
      processEvents (aboutToHandle [.other .nil]).state := rfl
  have h := processing_refines hstart
  exact ⟨h.1, h.2 (by simp [aboutToHandle, Mail.isTriple]) _⟩

end Exrdkafka.Consumer
