import Exrdkafka.Consumer.Server
import Exrdkafka.Foundations.Machine
import Exrdkafka.Foundations.Trace

/-!
# Stopping a consumer

`Consumer.stop` is run by the consumer group: it sends `{:stop, self(), tag}` to a live consumer and
waits for `{:stopped, tag}`. After 5000 ms it sends an exit signal instead and returns at once; the
group then cleans up the consumer's queue and later the client.

`Pair` is a group with one of its consumers. Messages and signals from the group arrive in the order
they were sent, at any time; the consumer takes its own steps and may end by itself at any time.

* `Silent` is what stopping is for: a stopped consumer polls and stores no more.
* `always_silent_of_prompt`: it holds in every run in which the timeout fires only on a consumer
  that has already ended. The exit signal is not waited for, and `timeout_notSilent` is a run in
  which the consumer stores an offset before it arrives.
-/

namespace Exrdkafka.Consumer

open Machine Trace

/-! ## The steps of a consumer -/

/-- The process has ended. -/
def World.Ended (w : World) : Prop := ∃ r, w.ctl = .terminated r

instance (w : World) : Decidable w.Ended :=
  match h : w.ctl with
  | .terminated r => isTrue ⟨r, h⟩
  | .loop | .pollEvents | .processEventsOneByOne .. | .handleMessage .. | .commitOffset ..
  | .processEventsBatch .. | .storeBatch .. | .handleBackoffOrStop .. | .sleeping .. =>
    isFalse fun ⟨r, hr⟩ => by simp [h] at hr

/-- A process that has ended makes no calls. -/
theorem step_ended {w w' : World} {l : Label} (hw : w.Ended) (h : step w l = some w') :
    w'.Ended ∧ w'.trace = w.trace := by
  obtain ⟨r, hr⟩ := hw
  cases l with
  | arrive m =>
    simp only [step] at h
    split_ifs at h
    obtain rfl := Option.some.inj h
    exact ⟨⟨r, hr⟩, rfl⟩
  | expire i =>
    obtain ⟨m, -, rfl⟩ := Option.map_eq_some_iff.1 h
    exact ⟨⟨r, hr⟩, rfl⟩
  | next => simp [step, internal, hr] at h
  | polled queue => simp [step, hr] at h
  | answered a => simp [step, answered, hr] at h
  | stored ok => simp [step, stored, hr] at h

/-- `w'` goes on from `w`: the history is extended, and a process that has answered a stop has
ended. -/
structure World.Extends (w' w : World) : Prop where
  trace : w.trace <+: w'.trace
  stopped : ∀ sender tag, .stopped sender tag ∈ w'.trace →
    .stopped sender tag ∈ w.trace ∨ w'.Ended

theorem extends_of_trace_eq {w w' : World} (h : w'.trace = w.trace) : w'.Extends w :=
  ⟨h ▸ List.prefix_refl _, fun _ _ hs => Or.inl (h ▸ hs)⟩

theorem extends_of_call {w w' : World} {c : Call} (h : w'.trace = w.trace ++ [c])
    (hc : ∀ sender tag, c ≠ .stopped sender tag) : w'.Extends w := by
  refine ⟨h ▸ List.prefix_append _ _, fun sender tag hs => Or.inl ?_⟩
  rw [h, List.mem_append, List.mem_singleton] at hs
  exact hs.resolve_right (hc sender tag).symm

theorem handleStop_extends (w : World) (sender tag : ℕ) : (handleStop w sender tag).Extends w :=
  ⟨List.prefix_append _ _, fun _ _ _ => Or.inr ⟨_, rfl⟩⟩

theorem interrupted_extends (w : World) (m : Mail) : (interrupted w m).Extends w := by
  cases m with
  | stop sender tag => exact handleStop_extends w sender tag
  | _ => exact extends_of_trace_eq rfl

theorem receive_extends (w : World) (m : Mail) : (receive w m).Extends w := by
  cases m with
  | self m =>
    cases m with
    | pollEvents => exact extends_of_trace_eq rfl
    | processMessages => exact extends_of_trace_eq rfl
  | stop sender tag => exact handleStop_extends w sender tag
  | triple t => exact extends_of_trace_eq rfl
  | other t => exact extends_of_trace_eq rfl

theorem internal_extends {w w' : World} (h : internal w = some w') : w'.Extends w := by
  unfold internal at h
  split at h
  case h_1 =>
    split at h
    · cases h
    · rename_i m rest hm
      have hrec := receive_extends { w with mailbox := rest } m
      exact Option.some.inj h ▸ ⟨hrec.trace, hrec.stopped⟩
  case h_2 => exact Option.some.inj h ▸ extends_of_trace_eq rfl
  case h_3 =>
    split at h
    · exact Option.some.inj h ▸ extends_of_trace_eq rfl
    · rename_i m rest hm
      have hint := interrupted_extends { w with mailbox := rest } m
      exact Option.some.inj h ▸ ⟨hint.trace, hint.stopped⟩
  case h_4 =>
    split at h
    · exact Option.some.inj h ▸ extends_of_trace_eq rfl
    · rename_i m rest hm
      have hint := interrupted_extends { w with mailbox := rest } m
      exact Option.some.inj h ▸ ⟨hint.trace, hint.stopped⟩
  case h_5 ms next hc =>
    exact Option.some.inj h ▸ extends_of_call (c := .sleep ms) rfl (by simp)
  case h_6 => cases h

theorem pollEvents_extends (w : World) (queue : List Nif.FetchEvent) :
    (pollEvents w queue).Extends w := by
  unfold pollEvents
  split
  · exact extends_of_call (c := .poll []) rfl (by simp)
  · rename_i p _
    dsimp only
    split
    · split
      · exact extends_of_call (c := .poll p.messages) rfl (by simp)
      · exact extends_of_call (c := .poll p.messages) rfl (by simp)
    · exact extends_of_call (c := .poll p.messages) rfl (by simp)

theorem answered_extends {w w' : World} {a : Answer} (h : answered w a = some w') :
    w'.Extends w := by
  unfold answered at h
  split at h
  case h_1 hd tl backoff cbState hc =>
    cases a with
    | _ =>
      exact Option.some.inj h ▸ extends_of_call (c := .handleMessage [hd] cbState _) rfl (by simp)
  case h_2 msgs last backoff cbState hc =>
    cases a with
    | _ =>
      exact Option.some.inj h ▸ extends_of_call (c := .handleMessage msgs cbState _) rfl (by simp)
  case h_3 => cases h

theorem stored_extends {w w' : World} {ok : Bool} (h : stored w ok = some w') : w'.Extends w := by
  unfold stored at h
  split at h
  case h_1 hd tl cbState hc =>
    exact Option.some.inj h ▸
      extends_of_call (c := .offsetStore hd.topic hd.partition hd.offset) rfl (by simp)
  case h_2 topic partition offset cbState hc =>
    refine Option.some.inj h ▸
      extends_of_call (c := .offsetStore topic partition offset) ?_ (by simp)
    cases ok <;> rfl
  case h_3 => cases h

/-- **The steps of a consumer extend its history.** -/
theorem step_extends {w w' : World} {l : Label} (h : step w l = some w') : w'.Extends w := by
  cases l with
  | arrive m =>
    simp only [step] at h
    split_ifs at h
    exact Option.some.inj h ▸ extends_of_trace_eq rfl
  | expire i =>
    obtain ⟨m, -, rfl⟩ := Option.map_eq_some_iff.1 h
    exact extends_of_trace_eq rfl
  | next => exact internal_extends h
  | polled queue =>
    simp only [step] at h
    split at h
    · exact Option.some.inj h ▸ pollEvents_extends w queue
    · cases h
  | answered a => exact answered_extends h
  | stored ok => exact stored_extends h

/-! ## A group and its consumer -/

/-- What the group sends to the consumer. -/
inductive Signal where
  /-- `{:stop, self(), tag}` -/
  | stop (tag : ℕ)
  /-- `Process.exit(pid, :kill)` -/
  | kill
  deriving DecidableEq

/-- What happens, on both sides. -/
inductive Event where
  | call (c : Call)
  /-- `Consumer.stop` returned -/
  | stopReturned
  /-- `ExrdkafkaNif.consumer_queue_cleanup` on the consumer's queue -/
  | queueCleanup
  /-- `ExrdkafkaNif.consumer_cleanup` on the client -/
  | consumerCleanup
  deriving DecidableEq

/-- A group and one of its consumers. -/
structure Pair where
  consumer : World
  /-- the tag of the stop the group waits for -/
  waiting : Option ℕ
  nextTag : ℕ
  /-- sent by the group and not arrived yet -/
  signals : List Signal
  history : List Event

/-- The group, as the sender of a stop. -/
def groupPid : ℕ := 0

/-- What the group and the consumer can do, and what can happen between them. -/
inductive Act where
  | consumer (l : Label)
  /-- the consumer ends by itself, such as by an exception of its callback -/
  | die (reason : ExitReason)
  /-- the group calls `Consumer.stop` -/
  | stop
  /-- what the group sent first arrives -/
  | deliver
  /-- the group receives `{:stopped, tag}` -/
  | stopped
  /-- the 5000 ms are over -/
  | timeout
  | queueCleanup
  | consumerCleanup

namespace Pair

/-- The consumer goes on as `w`. -/
def proceed (p : Pair) (w : World) : Pair :=
  { p with
    consumer := w
    history := p.history ++ (w.trace.drop p.consumer.trace.length).map .call }

/-- `Consumer.stop` returns. -/
def stopReturned (p : Pair) : Pair :=
  { p with waiting := none, history := p.history ++ [.stopReturned] }

/-- The group cleans up after a stop. -/
def cleanup (p : Pair) (e : Event) : Option Pair :=
  if p.waiting = none ∧ .stopReturned ∈ p.history then
    some { p with history := p.history ++ [e] }
  else none

/-- One step. -/
def step (p : Pair) : Act → Option Pair
  | .consumer l => (Consumer.step p.consumer l).map p.proceed
  | .die reason =>
    if p.consumer.Ended then none
    else some { p with consumer := p.consumer.goto (.terminated reason) }
  | .stop =>
    if p.waiting = none then
      -- `Process.alive?`
      if p.consumer.Ended then some p.stopReturned
      else some { p with
        waiting := some p.nextTag
        nextTag := p.nextTag + 1
        signals := p.signals ++ [.stop p.nextTag] }
    else none
  | .deliver =>
    match p.signals with
    | [] => none
    | .stop tag :: rest => some { p with
        signals := rest
        consumer := { p.consumer with mailbox := p.consumer.mailbox ++ [.stop groupPid tag] } }
    | .kill :: rest =>
      if p.consumer.Ended then some { p with signals := rest }
      else some { p with signals := rest, consumer := p.consumer.goto (.terminated .killed) }
  | .stopped =>
    match p.waiting with
    | none => none
    | some tag => if .stopped groupPid tag ∈ p.consumer.trace then some p.stopReturned else none
  | .timeout =>
    match p.waiting with
    | none => none
    | some _ => some { p.stopReturned with signals := p.signals ++ [.kill] }
  | .queueCleanup => p.cleanup .queueCleanup
  | .consumerCleanup => p.cleanup .consumerCleanup

/-- A group with a consumer that has just started. -/
def start (s : State) : Pair := ⟨World.start s, none, 0, [], []⟩

end Pair

/-! ## Silence -/

/-- A call that polls the queue. -/
def Call.isPoll : Call → Bool
  | .poll _ => true
  | _ => false

/-- A call that stores an offset. -/
def Call.isStore : Call → Bool
  | .offsetStore _ _ _ => true
  | _ => false

/-- A stopped consumer is silent. -/
structure Silent (h : List Event) : Prop where
  /-- It neither polls nor stores after the stop. -/
  stopped : AtEach (fun pre e => ∀ c, e = .call c → c.isPoll ∨ c.isStore → .stopReturned ∉ pre) h
  /-- It does not poll a queue that was cleaned up. -/
  queue : AtEach (fun pre e => ∀ c, e = .call c → c.isPoll → .queueCleanup ∉ pre) h
  /-- It does not store on a client that was cleaned up. -/
  client : AtEach (fun pre e => ∀ c, e = .call c → c.isStore → .consumerCleanup ∉ pre) h

/-- What the stop protocol keeps. -/
structure Quiet (p : Pair) : Prop where
  silent : Silent p.history
  /-- The consumer has ended when a stop has returned. -/
  returned : .stopReturned ∈ p.history → p.consumer.Ended
  /-- The consumer has ended when it has answered. -/
  answered : ∀ sender tag, .stopped sender tag ∈ p.consumer.trace → p.consumer.Ended
  /-- The group cleans up after a stop. -/
  cleaned : .queueCleanup ∈ p.history ∨ .consumerCleanup ∈ p.history → .stopReturned ∈ p.history

/-- The timeout fires only on a consumer that has ended. -/
def Prompt (p : Pair) : Act → Prop
  | .timeout => p.consumer.Ended
  | _ => True

theorem Silent.concat {h : List Event} {e : Event} (hs : Silent h) (he : ∀ c, e ≠ .call c) :
    Silent (h ++ [e]) := by
  refine ⟨atEach_concat.2 ⟨hs.stopped, ?_⟩, atEach_concat.2 ⟨hs.queue, ?_⟩,
    atEach_concat.2 ⟨hs.client, ?_⟩⟩ <;> exact fun c hc => absurd hc (he c)

/-- The calls of a consumer that nobody has stopped. -/
theorem Silent.calls {h : List Event} (hs : Silent h) (hno : .stopReturned ∉ h)
    (hqueue : .queueCleanup ∉ h) (hclient : .consumerCleanup ∉ h) (cs : List Call) :
    Silent (h ++ cs.map .call) := by
  have hmem {e : Event} (he : ∀ c, e ≠ .call c) (hnot : e ∉ h) {pre post : List Event} {a : Event}
      (hsplit : cs.map .call = pre ++ a :: post) : e ∉ h ++ pre := by
    intro hin
    rcases List.mem_append.1 hin with hin | hin
    · exact hnot hin
    · have hcalls : e ∈ cs.map Event.call := by simp [hsplit, hin]
      obtain ⟨c, -, rfl⟩ := List.mem_map.1 hcalls
      exact he c rfl
  refine ⟨AtEach.append hs.stopped ?_, AtEach.append hs.queue ?_, AtEach.append hs.client ?_⟩
  · exact fun pre a post hsplit c _ _ => hmem (by simp) hno hsplit
  · exact fun pre a post hsplit c _ _ => hmem (by simp) hqueue hsplit
  · exact fun pre a post hsplit c _ _ => hmem (by simp) hclient hsplit

/-- The consumer's steps add only calls to the history. -/
theorem mem_proceed {p : Pair} {w : World} {e : Event} (he : ∀ c, e ≠ .call c) :
    e ∈ (p.proceed w).history ↔ e ∈ p.history := by
  refine ⟨fun hmem => ?_, List.mem_append_left _⟩
  rcases List.mem_append.1 hmem with hmem | hmem
  · exact hmem
  · obtain ⟨c, -, rfl⟩ := List.mem_map.1 hmem
    exact absurd rfl (he c)

theorem Quiet.proceed {p : Pair} (h : Quiet p) {l : Label} {w : World}
    (hw : Consumer.step p.consumer l = some w) : Quiet (p.proceed w) := by
  by_cases hended : p.consumer.Ended
  · obtain ⟨hw', htrace⟩ := step_ended hended hw
    have hhist : (p.proceed w).history = p.history := by
      simp [Pair.proceed, htrace]
    exact ⟨hhist ▸ h.silent, fun _ => hw', fun _ _ _ => hw', hhist ▸ h.cleaned⟩
  · have hno : .stopReturned ∉ p.history := fun hret => hended (h.returned hret)
    have hqueue : .queueCleanup ∉ p.history := fun hq => hno (h.cleaned (Or.inl hq))
    have hclient : .consumerCleanup ∉ p.history := fun hc => hno (h.cleaned (Or.inr hc))
    have hext := step_extends hw
    refine ⟨h.silent.calls hno hqueue hclient _, fun hret => ?_, fun sender tag hs => ?_, ?_⟩
    · exact absurd ((mem_proceed (by simp)).1 hret) hno
    · rcases hext.stopped sender tag hs with hold | hend
      · exact absurd (h.answered sender tag hold) hended
      · exact hend
    · rintro (hq | hc)
      · exact absurd ((mem_proceed (by simp)).1 hq) hqueue
      · exact absurd ((mem_proceed (by simp)).1 hc) hclient

/-- A stop that returns once the consumer has ended. -/
theorem Quiet.stopReturned {p : Pair} (h : Quiet p) (hended : p.consumer.Ended) :
    Quiet p.stopReturned :=
  ⟨h.silent.concat (by simp), fun _ => hended, h.answered, fun _ => by simp [Pair.stopReturned]⟩

/-- The consumer ends. -/
theorem Quiet.terminated {p : Pair} (h : Quiet p) (reason : ExitReason) (signals : List Signal) :
    Quiet { p with signals := signals, consumer := p.consumer.goto (.terminated reason) } :=
  ⟨h.silent, fun _ => ⟨_, rfl⟩, fun _ _ _ => ⟨_, rfl⟩, h.cleaned⟩

theorem Quiet.cleanup {p p' : Pair} (h : Quiet p) {e : Event} (he : ∀ c, e ≠ .call c)
    (hstep : p.cleanup e = some p') : Quiet p' := by
  simp only [Pair.cleanup] at hstep
  split_ifs at hstep with hret
  obtain rfl := Option.some.inj hstep
  have hended := h.returned hret.2
  exact ⟨h.silent.concat he, fun _ => hended, h.answered, fun _ => List.mem_append_left _ hret.2⟩

/-- **One step keeps the consumer quiet**, unless the timeout fires on a live consumer. -/
theorem Quiet.step {p p' : Pair} {a : Act} (h : Quiet p) (hstep : p.step a = some p')
    (ha : Prompt p a) : Quiet p' := by
  cases a with
  | consumer l =>
    obtain ⟨w, hw, rfl⟩ := Option.map_eq_some_iff.1 hstep
    exact h.proceed hw
  | die reason =>
    simp only [Pair.step] at hstep
    split_ifs at hstep
    exact Option.some.inj hstep ▸ h.terminated reason p.signals
  | stop =>
    simp only [Pair.step] at hstep
    split_ifs at hstep with hwait hended
    · exact Option.some.inj hstep ▸ h.stopReturned hended
    · exact Option.some.inj hstep ▸ ⟨h.silent, h.returned, h.answered, h.cleaned⟩
  | deliver =>
    simp only [Pair.step] at hstep
    split at hstep
    · cases hstep
    · exact Option.some.inj hstep ▸ ⟨h.silent, h.returned, h.answered, h.cleaned⟩
    · split_ifs at hstep
      · exact Option.some.inj hstep ▸ ⟨h.silent, h.returned, h.answered, h.cleaned⟩
      · exact Option.some.inj hstep ▸ h.terminated .killed _
  | stopped =>
    simp only [Pair.step] at hstep
    split at hstep
    · cases hstep
    · rename_i tag _
      split_ifs at hstep with hmem
      exact Option.some.inj hstep ▸ h.stopReturned (h.answered groupPid tag hmem)
  | timeout =>
    simp only [Pair.step] at hstep
    split at hstep
    · cases hstep
    · have hret := h.stopReturned ha
      exact Option.some.inj hstep ▸ ⟨hret.silent, hret.returned, hret.answered, hret.cleaned⟩
  | queueCleanup => exact h.cleanup (by simp) hstep
  | consumerCleanup => exact h.cleanup (by simp) hstep

theorem quiet_start (s : State) : Quiet (Pair.start s) where
  silent := ⟨atEach_nil, atEach_nil, atEach_nil⟩
  returned := by simp [Pair.start]
  answered := by simp [Pair.start, World.start]
  cleaned := by simp [Pair.start]

/-- **A stopped consumer is silent** all along every run in which the timeout of a stop fires only
on a consumer that has ended. -/
theorem always_silent_of_prompt {s : State} {acts : List Act}
    (hprompt : Along Pair.step Prompt (Pair.start s) acts) :
    Always Pair.step (fun p => Silent p.history) (Pair.start s) acts := by
  have hquiet : Always Pair.step Quiet (Pair.start s) acts :=
    always_of_along (fun _ _ _ hq hstep ha => hq.step hstep ha) (quiet_start s) hprompt
  exact fun pre p hpre hrun => (hquiet pre p hpre hrun).silent

/-- A message of partition 0 of a topic. -/
def stopMessage : Nif.RdMessage := ⟨[101], 0, 7, none, some [118], none, 0, .notAvailable⟩

/-- A consumer that handles messages one by one, as `init` makes it. -/
def stopState : State :=
  { clientRef := .ref 0, topicName := [101], partition := 0, queueRef := .ref 1
    cbModule := .atom "nil", cbState := .nil, pollBatchSize := .int 100, pollIdleMs := .int 1000
    dispatchMode := .oneByOne, messages := [], lastOffset := -1 }

/-- The consumer polls a message and is in its callback. -/
def stopRun : List Act :=
  [.consumer (.expire 0), .consumer .next, .consumer (.polled [[stopMessage]]),
    .consumer (.expire 0), .consumer .next, .consumer .next]

/-- The callback takes more than 5000 ms: the group stops waiting and cleans up, and the consumer
stores the offset before the exit signal arrives. -/
theorem timeout_notSilent :
    ¬ Always Pair.step (fun p => Silent p.history) (Pair.start stopState)
      (stopRun ++ [.stop, .deliver, .timeout, .queueCleanup, .consumerCleanup,
        .consumer (.answered (.ok .nil)), .consumer (.stored true), .deliver]) := by
  intro h
  let msg : Nif.Message := Nif.makeMessageNif [101] 0 stopMessage
  have hstore := (h.last rfl).client [.call (.poll [msg]), .stopReturned, .queueCleanup,
    .consumerCleanup, .call (.handleMessage [msg] .nil (.ok .nil))]
    (.call (.offsetStore [101] 0 7)) [] rfl _ rfl rfl
  exact hstore (by simp)

/-- The callback returns in time: the offset is stored, then the stop is answered. -/
def promptRun : List Act :=
  stopRun ++ [.stop, .deliver, .consumer (.answered (.ok .nil)), .consumer (.stored true),
    .consumer .next, .consumer .next, .stopped, .queueCleanup, .consumerCleanup]

theorem always_silent_of_prompt_sample :
    (run Pair.step (Pair.start stopState) promptRun).isSome = true ∧
      Always Pair.step (fun p => Silent p.history) (Pair.start stopState) promptRun := by
  refine ⟨rfl, always_silent_of_prompt (along_of_forall_mem fun a ha p => ?_)⟩
  cases a with
  | timeout => simp [promptRun, stopRun] at ha
  | _ => trivial

end Exrdkafka.Consumer
