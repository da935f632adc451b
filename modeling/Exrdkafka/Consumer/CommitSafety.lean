import Exrdkafka.Consumer.Server
import Exrdkafka.Foundations.Machine
import Exrdkafka.Foundations.Trace
import Mathlib.Data.List.Perm.Basic

/-!
# Stored offsets cover only acknowledged messages

`CommitSafe` is the at-least-once guarantee of a consumer: when an offset is stored, every message
polled so far up to that offset has been in a call of the callback that returned `{:ok, _}`, and the
stored offsets increase.

The invariant behind it (`Progress`) follows the process through its code. Everywhere, the messages
polled so far are the acknowledged ones followed by those the current function still has to handle,
and the stored offsets are among the offsets of acknowledged messages. It needs the schedule as
well: exactly one self-sent message is outstanding while the process waits, `:process_messages` when
there are messages to handle and `:poll_events` when there are none, so that a poll never overwrites
messages.
-/

namespace Exrdkafka.Consumer

open Nif Machine Trace

/-! ## What a history says -/

/-- The messages a call polled. -/
def Call.polled : Call → List Message
  | .poll ms => ms
  | _ => []

/-- The messages a call had acknowledged. -/
def Call.acked : Call → List Message
  | .handleMessage ms _ (.ok _) => ms
  | _ => []

/-- The offset a call stored. -/
def Call.stored : Call → List ℤ
  | .offsetStore _ _ o => [o]
  | _ => []

/-- The messages polled in a history, in order. -/
def polledIn (tr : List Call) : List Message := tr.flatMap Call.polled

/-- The messages acknowledged in a history, in order. -/
def ackedIn (tr : List Call) : List Message := tr.flatMap Call.acked

/-- The offsets stored in a history, in order. -/
def storedIn (tr : List Call) : List ℤ := tr.flatMap Call.stored

@[simp] theorem polledIn_concat (tr : List Call) (c : Call) :
    polledIn (tr ++ [c]) = polledIn tr ++ c.polled := by simp [polledIn]

@[simp] theorem ackedIn_concat (tr : List Call) (c : Call) :
    ackedIn (tr ++ [c]) = ackedIn tr ++ c.acked := by simp [ackedIn]

@[simp] theorem storedIn_concat (tr : List Call) (c : Call) :
    storedIn (tr ++ [c]) = storedIn tr ++ c.stored := by simp [storedIn]

/-- The at-least-once guarantee of a history. -/
structure CommitSafe (tr : List Call) : Prop where
  /-- A stored offset covers only acknowledged messages. -/
  covered : AtEach (fun pre c => ∀ t p o, c = .offsetStore t p o →
    ∀ m ∈ polledIn pre, m.offset ≤ o → m ∈ ackedIn pre) tr
  increasing : (storedIn tr).Pairwise (· < ·)

/-- The polled messages come with increasing offsets. -/
def Increasing (tr : List Call) : Prop :=
  (polledIn tr).Pairwise fun m n => m.offset < n.offset

/-! ## The outstanding self-sent messages -/

/-- A self-sent message in the mailbox. -/
def Mail.self? : Mail → Option SelfMsg
  | .self m => some m
  | _ => none

/-- The self-sent messages still to be handled: running timers, then those in the mailbox. -/
def outstanding (w : World) : List SelfMsg := w.timers ++ w.mailbox.filterMap Mail.self?

/-- A timer that fires moves its message to the mailbox. -/
theorem outstanding_expire {w : World} {i : ℕ} {m : SelfMsg} (h : w.timers[i]? = some m) :
    (outstanding { w with timers := w.timers.eraseIdx i, mailbox := w.mailbox ++ [.self m] }).Perm
      (outstanding w) := by
  obtain ⟨hi, rfl⟩ := List.getElem?_eq_some_iff.1 h
  have hperm : (w.timers[i] :: w.timers.eraseIdx i).Perm w.timers :=
    List.getElem_cons_eraseIdx_perm hi
  simp only [outstanding, List.filterMap_append, List.filterMap_cons, Mail.self?,
    List.filterMap_nil, ← List.append_assoc]
  exact (List.perm_append_singleton _ _).trans (by simpa using hperm.append_right _)

/-! ## The invariant -/

/-- `rest` is what is left to handle, and only acknowledged offsets are stored. -/
structure Accounted (tr : List Call) (rest : List Message) : Prop where
  polled : polledIn tr = ackedIn tr ++ rest
  stored : (storedIn tr).Sublist ((ackedIn tr).map (·.offset))

/-- The offset `o` is about to be stored: it is the offset of the last message acknowledged, and it
has not been stored yet. -/
structure Owing (tr : List Call) (rest : List Message) (o : ℤ) : Prop where
  polled : polledIn tr = ackedIn tr ++ rest
  last : ∃ a m, ackedIn tr = a ++ [m] ∧ m.offset = o ∧
    (storedIn tr).Sublist (a.map (·.offset))

/-- What holds of the history, the state and the outstanding messages at each place in the code. -/
def Progress (tr : List Call) (s : State) (out : List SelfMsg) : Ctl → Prop
  | .loop => Accounted tr s.messages ∧ s.lastOffset = lastOffset s.messages ∧
      out = [if s.messages = [] then .pollEvents else .processMessages]
  | .pollEvents => Accounted tr [] ∧ s.messages = [] ∧ s.lastOffset = lastOffset [] ∧ out = []
  | .processEventsOneByOne msgs _ _ => Accounted tr msgs ∧ out = []
  | .handleMessage h t _ _ => Accounted tr (h :: t) ∧ out = []
  | .commitOffset h t _ => Owing tr t h.offset ∧ out = []
  | .processEventsBatch msgs last _ _ =>
      Accounted tr msgs ∧ msgs ≠ [] ∧ last.2.2 = lastOffset msgs ∧ out = []
  | .storeBatch last _ => Owing tr [] last.2.2 ∧ out = []
  | .handleBackoffOrStop msgs last _ _ =>
      Accounted tr msgs ∧ msgs ≠ [] ∧ last.2.2 = lastOffset msgs ∧ out = []
  | .sleeping _ next => Progress tr s out next
  | .terminated _ => ∃ rest, Accounted tr rest

/-- Every offset stored was the offset of the last message acknowledged before. -/
def StoresLast (tr : List Call) : Prop :=
  AtEach (fun pre c => ∀ t p o, c = .offsetStore t p o → ∃ rest, Owing pre rest o) tr

/-- The invariant of the process. -/
structure Inv (w : World) : Prop where
  stores : StoresLast w.trace
  progress : Progress w.trace w.state (outstanding w) w.ctl

/-- A call that polls, acknowledges and stores nothing leaves the accounts as they are. -/
def Call.Silent (c : Call) : Prop := c.polled = [] ∧ c.acked = [] ∧ c.stored = []

theorem Accounted.silent {tr : List Call} {rest : List Message} {c : Call} (hc : c.Silent)
    (h : Accounted tr rest) : Accounted (tr ++ [c]) rest := by
  obtain ⟨h₁, h₂, h₃⟩ := hc
  exact ⟨by simp [h₁, h₂, h.polled], by simpa [h₂, h₃] using h.stored⟩

theorem Owing.silent {tr : List Call} {rest : List Message} {o : ℤ} {c : Call} (hc : c.Silent)
    (h : Owing tr rest o) : Owing (tr ++ [c]) rest o := by
  obtain ⟨h₁, h₂, h₃⟩ := hc
  exact ⟨by simp [h₁, h₂, h.polled], by simpa [h₂, h₃] using h.last⟩

/-- The progress depends on the history through the accounts, and on the outstanding messages up to
their order. -/
theorem Progress.imp {tr tr' : List Call} {s : State} {out out' : List SelfMsg}
    (ha : ∀ {rest}, Accounted tr rest → Accounted tr' rest)
    (ho : ∀ {rest o}, Owing tr rest o → Owing tr' rest o) (hp : out'.Perm out) {ctl : Ctl}
    (h : Progress tr s out ctl) : Progress tr' s out' ctl := by
  have hnil : out = [] → out' = [] := fun e => by simpa [e] using hp
  induction ctl with
  | loop =>
    obtain ⟨h₁, h₂, h₃⟩ := h
    exact ⟨ha h₁, h₂, List.perm_singleton.1 (h₃ ▸ hp)⟩
  | pollEvents => exact ⟨ha h.1, h.2.1, h.2.2.1, hnil h.2.2.2⟩
  | processEventsOneByOne => exact ⟨ha h.1, hnil h.2⟩
  | handleMessage => exact ⟨ha h.1, hnil h.2⟩
  | commitOffset => exact ⟨ho h.1, hnil h.2⟩
  | processEventsBatch => exact ⟨ha h.1, h.2.1, h.2.2.1, hnil h.2.2.2⟩
  | storeBatch => exact ⟨ho h.1, hnil h.2⟩
  | handleBackoffOrStop => exact ⟨ha h.1, h.2.1, h.2.2.1, hnil h.2.2.2⟩
  | sleeping ms next ih => exact ih h
  | terminated =>
    obtain ⟨rest, hrest⟩ := h
    exact ⟨rest, ha hrest⟩

theorem Progress.silent {tr : List Call} {s : State} {out : List SelfMsg} {c : Call}
    (hc : c.Silent) {ctl : Ctl} (h : Progress tr s out ctl) : Progress (tr ++ [c]) s out ctl :=
  h.imp (Accounted.silent hc) (Owing.silent hc) (List.Perm.refl out)

theorem Progress.perm {tr : List Call} {s : State} {out out' : List SelfMsg} (hp : out'.Perm out)
    {ctl : Ctl} (h : Progress tr s out ctl) : Progress tr s out' ctl :=
  h.imp id id hp

theorem StoresLast.concat {tr : List Call} {c : Call} (h : StoresLast tr)
    (hc : ∀ t p o, c = .offsetStore t p o → ∃ rest, Owing tr rest o) : StoresLast (tr ++ [c]) :=
  atEach_concat.2 ⟨h, hc⟩

/-- After the owed offset is stored, the accounts are settled again. -/
theorem Owing.store {tr : List Call} {rest : List Message} {o : ℤ} (h : Owing tr rest o)
    (t : List UInt8) (p : ℤ) : Accounted (tr ++ [.offsetStore t p o]) rest := by
  obtain ⟨a, m, ha, rfl, hs⟩ := h.last
  refine ⟨by simp [Call.polled, Call.acked, h.polled], ?_⟩
  simp only [storedIn_concat, ackedIn_concat, Call.stored, Call.acked, List.append_nil, ha,
    List.map_append, List.map_cons, List.map_nil]
  exact hs.append (List.Sublist.refl _)

/-- Acknowledging the messages to handle, down to the last of them, makes its offset owed. -/
theorem Accounted.ack {tr : List Call} {ms rest : List Message} {cbState new : Term}
    (h : Accounted tr (ms ++ rest)) (hne : ms ≠ []) :
    Owing (tr ++ [.handleMessage ms cbState (.ok new)]) rest (lastOffset ms) := by
  obtain ⟨init, m, rfl⟩ := List.eq_nil_or_concat ms |>.resolve_left hne
  refine ⟨by simp [Call.polled, Call.acked, h.polled], ackedIn tr ++ init, m, by simp [Call.acked],
    by simp, ?_⟩
  simpa [Call.stored] using h.stored.trans (List.sublist_append_left _ _)

/-! ## One step keeps the invariant -/

theorem Inv.arrive {w : World} {m : Mail} (h : Inv w) (hm : m.isSelf = false) :
    Inv { w with mailbox := w.mailbox ++ [m] } := by
  have hout : outstanding { w with mailbox := w.mailbox ++ [m] } = outstanding w := by
    cases m with
    | self => cases hm
    | _ => simp [outstanding, Mail.self?]
  exact ⟨h.stores, hout ▸ h.progress⟩

theorem Inv.expire {w : World} {i : ℕ} {m : SelfMsg} (h : Inv w) (hi : w.timers[i]? = some m) :
    Inv { w with timers := w.timers.eraseIdx i, mailbox := w.mailbox ++ [.self m] } :=
  ⟨h.stores, h.progress.perm (outstanding_expire hi)⟩

/-- A call that stores nothing. -/
theorem StoresLast.other {tr : List Call} {c : Call} (h : StoresLast tr) (hc : c.stored = []) :
    StoresLast (tr ++ [c]) := by
  refine h.concat ?_
  rintro t p o rfl
  cases hc

theorem Inv.terminated (w : World) (hs : StoresLast w.trace) {rest : List Message}
    (h : Accounted w.trace rest) (r : ExitReason) : Inv (w.goto (.terminated r)) :=
  ⟨hs, rest, h⟩

theorem Inv.handleStop (w : World) (hs : StoresLast w.trace) {rest : List Message}
    (h : Accounted w.trace rest) (sender tag : ℕ) : Inv (handleStop w sender tag) :=
  Inv.terminated _ (hs.other rfl) (h.silent ⟨rfl, rfl, rfl⟩) _

theorem Inv.interrupted (w : World) (hs : StoresLast w.trace) {rest : List Message}
    (h : Accounted w.trace rest) (m : Mail) : Inv (interrupted w m) := by
  cases m with
  | stop sender tag => exact Inv.handleStop w hs h sender tag
  | _ => exact Inv.terminated w hs h _

theorem outstanding_schedule {w : World} (h : outstanding w = []) (m : SelfMsg) :
    outstanding (w.schedule m) = [m] := by
  obtain ⟨ht, hm⟩ := List.append_eq_nil_iff.1 h
  simp [outstanding, World.schedule, ht, hm]

/-- Taking the only outstanding message out of the mailbox. -/
theorem outstanding_take {w : World} {m x : SelfMsg} {rest : List Mail}
    (hw : w.mailbox = .self m :: rest) (h : outstanding w = [x]) :
    m = x ∧ outstanding { w with mailbox := rest } = [] := by
  have hmem : m ∈ outstanding w := by simp [outstanding, hw, Mail.self?]
  obtain rfl : m = x := by simpa [h] using hmem
  have hperm : (m :: outstanding { w with mailbox := rest }).Perm (outstanding w) := by
    simpa [outstanding, hw, Mail.self?] using List.perm_middle.symm
  rw [h] at hperm
  exact ⟨rfl, by simpa using List.perm_singleton.1 hperm⟩

/-- All messages are handled: the next poll is scheduled. -/
theorem Inv.finish (w : World) (hs : StoresLast w.trace) (ha : Accounted w.trace [])
    (hout : outstanding w = []) (cbState : Term) : Inv (finish w cbState) :=
  ⟨hs, ha, rfl, outstanding_schedule hout .pollEvents⟩

theorem Inv.receive {w : World} {m : Mail} {rest : List Mail} (h : Inv w) (hc : w.ctl = .loop)
    (hm : w.mailbox = m :: rest) : Inv (receive { w with mailbox := rest } m) := by
  have hp := h.progress
  rw [hc] at hp
  obtain ⟨ha, hl, hout⟩ := hp
  have ignored (hn : m.self? = none) : Inv { w with mailbox := rest } := by
    have hrest : outstanding { w with mailbox := rest } = outstanding w := by
      simp [outstanding, hm, hn]
    exact ⟨h.stores, hrest ▸ h.progress⟩
  cases m with
  | self m =>
    obtain ⟨hx, hnil⟩ := outstanding_take hm hout
    cases m with
    | pollEvents =>
      have hms : w.state.messages = [] := by
        by_contra hne
        simp [hne] at hx
      exact ⟨h.stores, hms ▸ ha, hms, hms ▸ hl, hnil⟩
    | processMessages =>
      have hms : w.state.messages ≠ [] := by
        intro he
        simp [he] at hx
      refine ⟨h.stores, ?_⟩
      cases hd : w.state.dispatchMode with
      | oneByOne =>
        simp only [Consumer.receive, processEvents, hd]
        exact ⟨ha, hnil⟩
      | batch =>
        simp only [Consumer.receive, processEvents, hd]
        exact ⟨ha, hms, hl, hnil⟩
  | stop sender tag => exact Inv.handleStop { w with mailbox := rest } h.stores ha sender tag
  | triple t => exact ignored rfl
  | other t => exact ignored rfl

@[simp] theorem progress_sleepThen {tr : List Call} {s : State} {out : List SelfMsg} {ms : ℕ}
    {next : Ctl} : Progress tr s out (sleepThen ms next) ↔ Progress tr s out next := by
  unfold sleepThen
  split <;> rfl

theorem Inv.internal {w w' : World} (h : Inv w) (hstep : internal w = some w') : Inv w' := by
  have hp := h.progress
  unfold Consumer.internal at hstep
  split at hstep
  case h_1 hc =>
    split at hstep
    · cases hstep
    · rename_i m rest hm
      exact Option.some.inj hstep ▸ h.receive hc hm
  case h_2 hc =>
    rw [hc] at hp
    exact Option.some.inj hstep ▸ Inv.finish w h.stores hp.1 hp.2 _
  case h_3 hc =>
    rw [hc] at hp
    split at hstep
    · exact Option.some.inj hstep ▸ ⟨h.stores, hp⟩
    · rename_i m rest hrecv
      exact Option.some.inj hstep ▸
        Inv.interrupted { w with mailbox := rest } h.stores hp.1 m
  case h_4 hc =>
    rw [hc] at hp
    split at hstep
    · refine Option.some.inj hstep ▸ ⟨h.stores, progress_sleepThen.2 hp⟩
    · rename_i m rest hrecv
      exact Option.some.inj hstep ▸
        Inv.interrupted { w with mailbox := rest } h.stores hp.1 m
  case h_5 hc =>
    rw [hc] at hp
    exact Option.some.inj hstep ▸ ⟨h.stores.other rfl, hp.silent ⟨rfl, rfl, rfl⟩⟩
  case h_6 => cases hstep

theorem Inv.pollEvents {w : World} (h : Inv w) (hc : w.ctl = .pollEvents)
    (queue : List FetchEvent) : Inv (pollEvents w queue) := by
  have hp := h.progress
  rw [hc] at hp
  obtain ⟨ha, hms₀, hl₀, hout⟩ := hp
  unfold Consumer.pollEvents
  split
  · exact Inv.terminated (w.call (.poll [])) (h.stores.other rfl) (ha.silent ⟨rfl, rfl, rfl⟩) _
  · rename_i p hpoll
    have hs : StoresLast (w.trace ++ [.poll p.messages]) := h.stores.other rfl
    have ha' : Accounted (w.trace ++ [.poll p.messages]) p.messages :=
      ⟨by simp [Call.polled, Call.acked, ha.polled],
        by simpa [Call.acked, Call.stored] using ha.stored⟩
    have hl : p.lastOffset = lastOffset p.messages := enifConsumerQueuePoll_lastOffset hpoll
    dsimp only
    split
    · rename_i hms
      split
      · -- the state keeps the empty list it had
        refine ⟨hs, ?_, by rw [← hms₀] at hl₀; exact hl₀, ?_⟩
        · show Accounted (w.trace ++ [.poll p.messages]) w.state.messages
          simpa only [hms, hms₀] using ha'
        · show _ = [if w.state.messages = [] then _ else _]
          rw [if_pos hms₀]
          exact outstanding_schedule hout .pollEvents
      · exact Inv.terminated (w.call (.poll p.messages)) hs ha' _
    · rename_i hms
      refine ⟨hs, ha', hl, ?_⟩
      rw [if_neg hms]
      exact outstanding_schedule hout .processMessages

theorem Inv.answered {w w' : World} {a : Answer} (h : Inv w) (hstep : answered w a = some w') :
    Inv w' := by
  have hp := h.progress
  unfold Consumer.answered at hstep
  split at hstep
  case h_1 hd tl backoff cbState hc =>
    rw [hc] at hp
    obtain ⟨ha, hout⟩ := hp
    cases a with
    | ok new =>
      have hms : Accounted w.trace ([hd] ++ tl) := ha
      exact Option.some.inj hstep ▸ ⟨h.stores.other rfl, hms.ack (by simp), hout⟩
    | error reason new =>
      exact Option.some.inj hstep ▸
        ⟨h.stores.other rfl, progress_sleepThen.2 ⟨ha.silent ⟨rfl, rfl, rfl⟩, hout⟩⟩
    | other t =>
      exact Option.some.inj hstep ▸
        ⟨h.stores.other rfl, progress_sleepThen.2 ⟨ha.silent ⟨rfl, rfl, rfl⟩, hout⟩⟩
  case h_2 hc =>
    rw [hc] at hp
    obtain ⟨ha, hne, hl, hout⟩ := hp
    cases a with
    | ok new =>
      refine Option.some.inj hstep ▸ ⟨h.stores.other rfl, ?_, hout⟩
      rw [hl]
      exact Accounted.ack (by simpa using ha) hne
    | error reason new =>
      exact Option.some.inj hstep ▸
        ⟨h.stores.other rfl, ha.silent ⟨rfl, rfl, rfl⟩, hne, hl, hout⟩
    | other t =>
      exact Option.some.inj hstep ▸
        ⟨h.stores.other rfl, ha.silent ⟨rfl, rfl, rfl⟩, hne, hl, hout⟩
  case h_3 => cases hstep

theorem Inv.stored {w w' : World} {ok : Bool} (h : Inv w) (hstep : stored w ok = some w') :
    Inv w' := by
  have hp := h.progress
  unfold Consumer.stored at hstep
  split at hstep
  case h_1 hd tl cbState hc =>
    rw [hc] at hp
    obtain ⟨ho, hout⟩ := hp
    have hs : StoresLast (w.trace ++ [.offsetStore hd.topic hd.partition hd.offset]) :=
      h.stores.concat (by rintro t p o ⟨⟩; exact ⟨tl, ho⟩)
    have ha := ho.store hd.topic hd.partition
    cases ok with
    | true => exact Option.some.inj hstep ▸ ⟨hs, ha, hout⟩
    | false => exact Option.some.inj hstep ▸ ⟨hs, _, ha⟩
  case h_2 topic partition offset cbState hc =>
    rw [hc] at hp
    obtain ⟨ho, hout⟩ := hp
    have hs : StoresLast (w.trace ++ [.offsetStore topic partition offset]) :=
      h.stores.concat (by rintro t p o ⟨⟩; exact ⟨[], ho⟩)
    have ha := ho.store topic partition
    cases ok with
    | true =>
      exact Option.some.inj hstep ▸
        Inv.finish (w.call (.offsetStore topic partition offset)) hs ha hout cbState
    | false => exact Option.some.inj hstep ▸ ⟨hs, _, ha⟩
  case h_3 => cases hstep

/-- **One step keeps the invariant.** -/
theorem Inv.step {w w' : World} {l : Label} (h : Inv w) (hstep : step w l = some w') : Inv w' := by
  cases l with
  | arrive m =>
    obtain ⟨hm, rfl⟩ : m.isSelf = false ∧ { w with mailbox := w.mailbox ++ [m] } = w' := by
      simpa [Consumer.step] using hstep
    exact h.arrive hm
  | expire i =>
    obtain ⟨m, hm, rfl⟩ := Option.map_eq_some_iff.1 hstep
    exact h.expire hm
  | next => exact h.internal hstep
  | polled queue =>
    simp only [Consumer.step] at hstep
    split at hstep
    · rename_i hc
      exact Option.some.inj hstep ▸ h.pollEvents hc queue
    · cases hstep
  | answered a => exact h.answered hstep
  | stored ok => exact h.stored hstep

/-- A process whose `init` succeeded has an empty message list. -/
theorem init_ok {clientRef : Term} {topicName : List UInt8} {partition : ℤ} {queueRef : Term}
    {topicSettings : Option (List (Term × Term))} {answer : InitAnswer} {s : State}
    (h : init clientRef topicName partition queueRef topicSettings answer = .ok s) :
    s.messages = [] ∧ s.lastOffset = -1 := by
  unfold init at h
  split at h
  · cases h
  · split at h
    · cases h
    · cases h
    · split at h
      · cases h
      · cases h
        exact ⟨rfl, rfl⟩

theorem Inv.start {s : State} (hm : s.messages = []) (hl : s.lastOffset = -1) :
    Inv (World.start s) := by
  refine ⟨atEach_nil, ⟨by simp [World.start, hm, polledIn, ackedIn], List.nil_sublist _⟩, ?_, ?_⟩
  · simp [World.start, hm, hl, lastOffset]
  · simp [World.start, hm, outstanding]

/-! ## Commit safety -/

theorem Owing.accounted {tr : List Call} {rest : List Message} {o : ℤ} (h : Owing tr rest o) :
    Accounted tr rest := by
  obtain ⟨a, m, ha, -, hs⟩ := h.last
  refine ⟨h.polled, hs.trans ?_⟩
  rw [ha]
  exact (List.sublist_append_left a [m]).map _

/-- At every place in the code the history is accounted for. -/
theorem Progress.accounted {tr : List Call} {s : State} {out : List SelfMsg} {ctl : Ctl}
    (h : Progress tr s out ctl) : ∃ rest, Accounted tr rest := by
  induction ctl with
  | loop => exact ⟨_, h.1⟩
  | pollEvents => exact ⟨_, h.1⟩
  | processEventsOneByOne => exact ⟨_, h.1⟩
  | handleMessage => exact ⟨_, h.1⟩
  | commitOffset => exact ⟨_, h.1.accounted⟩
  | processEventsBatch => exact ⟨_, h.1⟩
  | storeBatch => exact ⟨_, h.1.accounted⟩
  | handleBackoffOrStop => exact ⟨_, h.1⟩
  | sleeping ms next ih => exact ih h
  | terminated => exact h

theorem polledIn_append (tr tr' : List Call) : polledIn (tr ++ tr') = polledIn tr ++ polledIn tr' :=
  List.flatMap_append

/-- When the polled offsets increase, an owed offset covers only acknowledged messages. -/
theorem Owing.covered {tr : List Call} {rest : List Message} {o : ℤ} (h : Owing tr rest o)
    (hinc : Increasing tr) {m : Message} (hm : m ∈ polledIn tr) (ho : m.offset ≤ o) :
    m ∈ ackedIn tr := by
  obtain ⟨a, last, ha, rfl, -⟩ := h.last
  rw [h.polled] at hm
  rcases List.mem_append.1 hm with hm | hm
  · exact hm
  · have hlast : last ∈ ackedIn tr := by simp [ha]
    rw [Increasing, h.polled, List.pairwise_append] at hinc
    have := hinc.2.2 last hlast m hm
    omega

theorem Accounted.stored_increasing {tr : List Call} {rest : List Message} (h : Accounted tr rest)
    (hinc : Increasing tr) : (storedIn tr).Pairwise (· < ·) := by
  rw [Increasing, h.polled, List.pairwise_append] at hinc
  exact (List.pairwise_map.2 hinc.1).sublist h.stored

theorem Inv.commitSafe {w : World} (h : Inv w) (hinc : Increasing w.trace) :
    CommitSafe w.trace := by
  constructor
  · refine h.stores.mono fun pre c post htr howing t p o hc m hm ho => ?_
    obtain ⟨rest, hrest⟩ := howing t p o hc
    have hpre : Increasing pre := by
      rw [Increasing, htr, polledIn_append] at hinc
      exact (List.pairwise_append.1 hinc).1
    exact hrest.covered hpre hm ho
  · obtain ⟨rest, ha⟩ := h.progress.accounted
    exact ha.stored_increasing hinc

/-- **Commit safety.** In every run of a consumer process the stored offsets increase and cover only
messages the callback has acknowledged, when the polled messages come with increasing offsets. -/
theorem commitSafe_of_run (clientRef : Term) (topicName : List UInt8) (partition : ℤ)
    (queueRef : Term) (topicSettings : Option (List (Term × Term))) (answer : InitAnswer)
    {s : State} (hinit : init clientRef topicName partition queueRef topicSettings answer = .ok s)
    (ls : List Label) {w : World} (hrun : run step (World.start s) ls = some w)
    (hinc : Increasing w.trace) : CommitSafe w.trace := by
  obtain ⟨hm, hl⟩ := init_ok hinit
  have hinv : Inv w := run_invariant (fun _ _ _ h hs => h.step hs) (Inv.start hm hl) hrun
  exact hinv.commitSafe hinc

/-- A message of partition 0 of a topic. -/
def sampleMessage (offset : ℤ) : RdMessage :=
  ⟨[101], 0, offset, none, some [118], none, 0, .notAvailable⟩

/-- The process that `init` makes of the dispatch mode `{:batch, 10}`. -/
def sampleState : State :=
  { clientRef := .ref 0, topicName := [101], partition := 0, queueRef := .ref 1
    cbModule := .atom "nil", cbState := .nil, pollBatchSize := .int 10, pollIdleMs := .int 1000
    dispatchMode := .batch, messages := [], lastOffset := -1 }

/-- A batch of two messages that the callback refuses once and then acknowledges. -/
def sampleRun : List Label :=
  [.expire 0, .next, .polled [[sampleMessage 7, sampleMessage 8]], .expire 0, .next,
    .answered (.error .undefined .nil), .next, .answered (.ok .nil), .stored true]

/-- The messages of `sampleRun` as the process sees them. -/
def sampleBatch : List Message :=
  [makeMessageNif [101] 0 (sampleMessage 7), makeMessageNif [101] 0 (sampleMessage 8)]

theorem commitSafe_of_run_sample :
    CommitSafe [.poll sampleBatch, .handleMessage sampleBatch .nil (.error .undefined .nil),
      .handleMessage sampleBatch .nil (.ok .nil), .offsetStore [101] 0 8] :=
  commitSafe_of_run (.ref 0) [101] 0 (.ref 1)
    (some [(.atom "dispatch_mode", .tuple [.atom "batch", .int 10])]) (.ok .nil)
    (s := sampleState) rfl sampleRun
    (w := ⟨sampleState, .loop, [], [.pollEvents],
      [.poll sampleBatch, .handleMessage sampleBatch .nil (.error .undefined .nil),
        .handleMessage sampleBatch .nil (.ok .nil), .offsetStore [101] 0 8]⟩)
    rfl (by unfold Increasing; decide)

end Exrdkafka.Consumer
