import Exrdkafka.Consumer.Server
import Exrdkafka.Foundations.Machine

/-!
# Processing a list of messages

`process_events` runs from the receipt of `:process_messages` until it returns to the server loop or
the process ends. In the meantime messages arrive and timers fire, in any order. `procStep` is the
consumer restricted to that phase, and `proceeds_of_step` lists what its steps are.
-/

namespace Exrdkafka.Consumer

open Nif

/-! ## The phase -/

/-- Inside `process_events`. -/
def Ctl.processing : Ctl → Bool
  | .loop | .pollEvents | .terminated _ => false
  | .sleeping _ next => next.processing
  | _ => true

/-- At `recv_stop`: before each message of a list processed one by one, and after each failed
attempt at a batch. -/
def Ctl.looks : Ctl → Bool
  | .processEventsOneByOne (_ :: _) _ _ | .handleBackoffOrStop .. => true
  | _ => false

/-- One step while messages are processed. -/
def procStep (w : World) (l : Label) : Option World :=
  if w.ctl.processing then step w l else none

/-- A process that is about to handle one message one by one, with this mail in its mailbox. -/
def aboutToHandle (mailbox : List Mail) : World where
  state :=
    { clientRef := .ref 0, topicName := [116], partition := 0, queueRef := .ref 1
      cbModule := .atom "callback", cbState := .nil, pollBatchSize := .int 100
      pollIdleMs := .int 1000, dispatchMode := .oneByOne
      messages := [⟨[116], 0, 7, none, none, none, (0, .createTime)⟩], lastOffset := 7 }
  ctl := .processEventsOneByOne [⟨[116], 0, 7, none, none, none, (0, .createTime)⟩] 0 .nil
  mailbox := mailbox
  timers := []
  trace := []

/-! ## Looking for a stop -/

theorem recvStop_eq_none {mailbox : List Mail} (h : recvStop mailbox = none) :
    ∀ m ∈ mailbox, m.isTriple = false := by
  induction mailbox with
  | nil => exact nofun
  | cons m ms ih =>
    rw [recvStop] at h
    split_ifs at h with hm
    exact List.forall_mem_cons.2 ⟨by simpa using hm, ih (Option.map_eq_none_iff.1 h)⟩

theorem recvStop_of_not_triple {mailbox : List Mail} (h : ∀ m ∈ mailbox, m.isTriple = false) :
    recvStop mailbox = none := by
  induction mailbox with
  | nil => rfl
  | cons m ms ih =>
    obtain ⟨hm, hms⟩ := List.forall_mem_cons.1 h
    rw [recvStop, if_neg (by simp [hm]), ih hms]
    rfl

theorem recvStop_eq_some {mailbox rest : List Mail} {m : Mail}
    (h : recvStop mailbox = some (m, rest)) : m.isTriple = true ∧
      ∃ pre post, mailbox = pre ++ m :: post ∧ rest = pre ++ post ∧
        ∀ x ∈ pre, x.isTriple = false := by
  induction mailbox generalizing rest with
  | nil => cases h
  | cons x ms ih =>
    rw [recvStop] at h
    split_ifs at h with hx
    · cases h
      exact ⟨hx, [], ms, rfl, rfl, nofun⟩
    · obtain ⟨⟨m', rest'⟩, hrecv, heq⟩ := Option.map_eq_some_iff.1 h
      cases heq
      obtain ⟨hm, pre, post, rfl, rfl, hpre⟩ := ih hrecv
      exact ⟨hm, x :: pre, post, rfl, rfl, List.forall_mem_cons.2 ⟨by simpa using hx, hpre⟩⟩

/-! ## The steps -/

/-- Where `handle_message` goes on after an answer. -/
def afterMessage (h : Message) (t : List Message) (backoff : ℕ) (cbState : Term) : Answer → Ctl
  | .ok new => .commitOffset h t new
  | .error _ new => retryOneByOne (h :: t) backoff new
  | .other _ => retryOneByOne (h :: t) backoff cbState

/-- Where `process_events_batch` goes on after an answer. -/
def afterBatch (msgs : List Message) (last : BatchOffset) (backoff : ℕ) (cbState : Term) :
    Answer → Ctl
  | .ok new => .storeBatch last new
  | .error _ new => .handleBackoffOrStop msgs last backoff new
  | .other _ => .handleBackoffOrStop msgs last backoff cbState

/-- The steps of the phase. -/
inductive Proceeds (w : World) : Label → World → Prop where
  | arrived {m : Mail} : m.isSelf = false →
      Proceeds w (.arrive m) { w with mailbox := w.mailbox ++ [m] }
  | expired {i : ℕ} {m : SelfMsg} : w.timers[i]? = some m →
      Proceeds w (.expire i)
        { w with timers := w.timers.eraseIdx i, mailbox := w.mailbox ++ [.self m] }
  | finished {backoff : ℕ} {cbState : Term} :
      w.ctl = .processEventsOneByOne [] backoff cbState → Proceeds w .next (finish w cbState)
  | begun {h : Message} {t : List Message} {backoff : ℕ} {cbState : Term} :
      w.ctl = .processEventsOneByOne (h :: t) backoff cbState → recvStop w.mailbox = none →
      Proceeds w .next (w.goto (.handleMessage h t backoff cbState))
  | retried {msgs : List Message} {last : BatchOffset} {backoff : ℕ} {cbState : Term} :
      w.ctl = .handleBackoffOrStop msgs last backoff cbState → recvStop w.mailbox = none →
      Proceeds w .next (w.goto (retryBatch msgs last backoff cbState))
  | interrupted {m : Mail} {rest : List Mail} : w.ctl.looks = true →
      recvStop w.mailbox = some (m, rest) →
      Proceeds w .next (interrupted { w with mailbox := rest } m)
  | slept {ms : ℕ} {next : Ctl} : w.ctl = .sleeping ms next →
      Proceeds w .next ((w.call (.sleep ms)).goto next)
  | answered {h : Message} {t : List Message} {backoff : ℕ} {cbState : Term} (a : Answer) :
      w.ctl = .handleMessage h t backoff cbState →
      Proceeds w (.answered a)
        ((w.call (.handleMessage [h] cbState a)).goto (afterMessage h t backoff cbState a))
  | answeredBatch {msgs : List Message} {last : BatchOffset} {backoff : ℕ} {cbState : Term}
      (a : Answer) : w.ctl = .processEventsBatch msgs last backoff cbState →
      Proceeds w (.answered a)
        ((w.call (.handleMessage msgs cbState a)).goto (afterBatch msgs last backoff cbState a))
  | stored {h : Message} {t : List Message} {cbState : Term} (ok : Bool) :
      w.ctl = .commitOffset h t cbState →
      Proceeds w (.stored ok) ((w.call (.offsetStore h.topic h.partition h.offset)).goto
        (if ok then .processEventsOneByOne t 0 cbState else .terminated .badMatch))
  | storedBatch {topic : List UInt8} {partition offset : ℤ} {cbState : Term} :
      w.ctl = .storeBatch (topic, partition, offset) cbState →
      Proceeds w (.stored true) (finish (w.call (.offsetStore topic partition offset)) cbState)
  | storeFailed {topic : List UInt8} {partition offset : ℤ} {cbState : Term} :
      w.ctl = .storeBatch (topic, partition, offset) cbState →
      Proceeds w (.stored false)
        ((w.call (.offsetStore topic partition offset)).goto (.terminated .badMatch))

theorem proceeds_internal {w w' : World} (hctl : w.ctl.processing = true)
    (h : internal w = some w') : Proceeds w .next w' := by
  unfold internal at h
  split at h
  case h_1 hc =>
    rw [hc] at hctl
    cases hctl
  case h_2 hc => exact Option.some.inj h ▸ .finished hc
  case h_3 hc =>
    split at h
    · rename_i hnone
      exact Option.some.inj h ▸ .begun hc hnone
    · rename_i m rest hsome
      exact Option.some.inj h ▸ .interrupted (by rw [hc]; rfl) hsome
  case h_4 hc =>
    split at h
    · rename_i hnone
      exact Option.some.inj h ▸ .retried hc hnone
    · rename_i m rest hsome
      exact Option.some.inj h ▸ .interrupted (by rw [hc]; rfl) hsome
  case h_5 hc => exact Option.some.inj h ▸ .slept hc
  case h_6 => cases h

theorem proceeds_answered {w w' : World} {a : Answer} (h : answered w a = some w') :
    Proceeds w (.answered a) w' := by
  unfold Consumer.answered at h
  split at h
  case h_1 hc => cases a <;> exact Option.some.inj h ▸ .answered _ hc
  case h_2 hc => cases a <;> exact Option.some.inj h ▸ .answeredBatch _ hc
  case h_3 => cases h

theorem proceeds_stored {w w' : World} {ok : Bool} (h : stored w ok = some w') :
    Proceeds w (.stored ok) w' := by
  unfold Consumer.stored at h
  split at h
  case h_1 hc => exact Option.some.inj h ▸ .stored ok hc
  case h_2 hc =>
    cases ok with
    | true => exact Option.some.inj h ▸ .storedBatch hc
    | false => exact Option.some.inj h ▸ .storeFailed hc
  case h_3 => cases h

/-- **The steps of the phase**, all of them. -/
theorem proceeds_of_step {w w' : World} {l : Label} (h : procStep w l = some w') :
    w.ctl.processing = true ∧ Proceeds w l w' := by
  rw [procStep] at h
  split_ifs at h with hctl
  refine ⟨hctl, ?_⟩
  cases l with
  | arrive m =>
    simp only [step] at h
    split_ifs at h with hself
    exact Option.some.inj h ▸ .arrived (by simpa using hself)
  | expire i =>
    obtain ⟨m, hm, rfl⟩ := Option.map_eq_some_iff.1 h
    exact .expired hm
  | next => exact proceeds_internal hctl h
  | polled queue =>
    simp only [step] at h
    split at h
    · rename_i hc
      rw [hc] at hctl
      cases hctl
    · cases h
  | answered a => exact proceeds_answered h
  | stored ok => exact proceeds_stored h

end Exrdkafka.Consumer
