import Exrdkafka.Foundations.Machine
import Exrdkafka.Producer.Server

/-!
# The schedule of the drain

A producer with the strategy `:local_disk_queue` drains its queue when it receives the
`:consume_queue` it has sent itself. The flag `pqueue_sch` is to say whether one is outstanding: as
a timer that runs, or in the mailbox.

`Timed` is the process with its mailbox and its timers. Messages of other processes arrive and
timers fire at any time, and librdkafka answers what it likes to the attempts of a drain.

* `Mirrored`: the flag is set when exactly one `:consume_queue` is outstanding, and cleared only
  when none is and the queue is empty.
* `mirrored_of_run`: it holds in every state of every run. A drain takes the only message there is,
  and schedules the next one unless it has come to the end of the queue.
-/

namespace Exrdkafka.Producer

open GenServer Nif Machine

/-! ## The process with its timers -/

/-- A drain. -/
def Message.isDrain : Message → Bool
  | .info (.consumeQueue _) => true
  | _ => false

/-- What is in the mailbox. -/
inductive Post where
  /-- `:consume_queue`, which the process has sent itself -/
  | consumeQueue
  | cast
  /-- a call or a message of another process -/
  | foreign (m : Message) (hm : m.isDrain = false)

/-- Sent by the process itself. -/
def Post.own : Post → Bool
  | .consumeQueue => true
  | _ => false

/-- The process with its mailbox and the timeouts of its running timers. -/
structure Timed where
  server : State
  mailbox : List Post
  timers : List ℕ

/-- The timers that some effects start. -/
def timersSet (es : List Effect) : List ℕ :=
  es.filterMap fun
    | .sendAfter timeout => some timeout
    | _ => none

namespace Timed

/-- The process that a callback of `init` starts, if it does not raise. -/
def start (h : Handled State Term Effect) : Option Timed :=
  h.next.map fun s => ⟨s, [], timersSet h.effects⟩

/-- A callback has returned; the process ends when it has raised. -/
def handled (w : Timed) (h : Handled State Term Effect) : Option Timed :=
  h.next.map fun s => { w with server := s, timers := w.timers ++ timersSet h.effects }

/-- A message is taken from the mailbox. With a drain come librdkafka's answers. -/
def receive (w : Timed) (answers : ℕ → Answer) : Post → Option Timed
  | .consumeQueue => w.handled (handleInfo w.server (.consumeQueue answers))
  | .cast => some w
  | .foreign m _ => w.handled (handle w.server m)

/-- The `:consume_queue` messages still to be handled. -/
def outstanding (w : Timed) : ℕ := w.timers.length + w.mailbox.countP Post.own

end Timed

/-- What can happen. -/
inductive TimedEvent where
  /-- another process sends a message -/
  | arrive (p : Post)
  /-- the `i`-th timer fires -/
  | expire (i : ℕ)
  /-- the process handles its next message -/
  | next (answers : ℕ → Answer)

/-- One step. -/
def Timed.step (w : Timed) : TimedEvent → Option Timed
  | .arrive p => if p.own then none else some { w with mailbox := w.mailbox ++ [p] }
  | .expire i =>
    w.timers[i]?.map fun _ =>
      { w with timers := w.timers.eraseIdx i, mailbox := w.mailbox ++ [.consumeQueue] }
  | .next answers =>
    match w.mailbox with
    | [] => none
    | p :: rest => { w with mailbox := rest }.receive answers p

/-! ## The flag and the outstanding message -/

/-- `pqueue_sch` mirrors the outstanding `:consume_queue`. -/
structure Mirrored (w : Timed) : Prop where
  scheduled : w.server.pqueueSch = true ↔ w.outstanding = 1
  idle : w.server.pqueueSch = false → w.outstanding = 0 ∧ w.server.pqueue = []
  once : w.outstanding ≤ 1
  /-- A queue that is not empty is going to be drained. -/
  drained : w.server.pqueue ≠ [] → w.outstanding = 1

/-- The invariant: as many messages are outstanding as the flag says, and a cleared flag means an
empty queue. -/
structure Mirrors (n : ℕ) (s : State) : Prop where
  strategy : s.overflowMethod = localDiskQueue
  count : n = s.pqueueSch.toNat
  empty : s.pqueueSch = false → s.pqueue = []

theorem Mirrors.mirrored {w : Timed} (h : Mirrors w.outstanding w.server) : Mirrored w := by
  obtain ⟨-, hcount, hempty⟩ := h
  cases hsch : w.server.pqueueSch with
  | true =>
    rw [hsch, Bool.toNat_true] at hcount
    exact ⟨by simp [hsch, hcount], by simp [hsch], hcount.le, fun _ => hcount⟩
  | false =>
    rw [hsch, Bool.toNat_false] at hcount
    exact ⟨by simp [hsch, hcount], fun _ => ⟨hcount, hempty hsch⟩, by omega,
      fun hne => absurd (hempty hsch) hne⟩

/-! ## What the callbacks do to the schedule -/

@[simp] theorem timersSet_append (es fs : List Effect) :
    timersSet (es ++ fs) = timersSet es ++ timersSet fs :=
  List.filterMap_append

@[simp] theorem timersSet_map_attempt (as : List Attempt) : timersSet (as.map .attempt) = [] := by
  simp [timersSet, List.filterMap_map]

@[simp] theorem timersSet_callCallback (callback status message : Term) :
    timersSet (callCallback callback status message) = [] := by
  unfold callCallback
  split <;> rfl

/-- A timer is started exactly when none was. -/
theorem timersSet_scheduleConsumeQueue (scheduled : Bool) (timeout : ℕ) :
    scheduled.toNat + (timersSet (scheduleConsumeQueue scheduled timeout)).length = 1 := by
  cases scheduled <;> rfl

/-- A drain that says it is through has emptied the queue. -/
theorem consumeQueue_completed {clientRef : Term} {n : ℕ} {q : List Payload} {answers : ℕ → Answer}
    (h : (consumeQueue clientRef n q answers).result = .completed) :
    (consumeQueue clientRef n q answers).queue = [] := by
  fun_induction consumeQueue clientRef n q answers with
  | case1 => cases h
  | case2 n q answers hhead => exact List.head?_eq_none_iff.1 hhead
  | case3 n q answers msg hhead event result hok d ih => exact ih h
  | case4 => cases h
  | case5 n q answers msg hhead event result hok hfull d ih => exact ih h

/-- `init` starts one timer. -/
theorem mirrors_init (clientId : String) (drCallback : Term) (config : List (Term × Term))
    (ref : Term) (localQueue : Option (List Payload))
    (hlocal : Utils.lookup (.atom "queue_buffering_overflow_strategy") config localDiskQueue =
      localDiskQueue) {w : Timed}
    (h : Timed.start (init clientId drCallback config ref localQueue) = some w) :
    Mirrors w.outstanding w.server := by
  cases localQueue with
  | none => cases h
  | some q =>
    simp only [Timed.start, init, hlocal, if_true] at h
    obtain rfl := Option.some.inj h
    exact ⟨rfl, rfl, by simp⟩

/-- A message of another process keeps the flag and the outstanding message in step. -/
theorem Mirrors.foreign {n : ℕ} {s s' : State} {m : Message} (h : Mirrors n s)
    (hm : m.isDrain = false) (hnext : (handle s m).next = some s') :
    Mirrors (n + (timersSet (handle s m).effects).length) s' := by
  rcases m with (e | _ | r) | (answers | ⟨status, message⟩ | _ | i)
  · have hset := timersSet_scheduleConsumeQueue s.pqueueSch 1000
    simp only [handle, handleCall, h.strategy, if_true, Handled.next, Option.some.injEq,
      Handled.effects] at hnext ⊢
    subst hnext
    exact ⟨rfl, by rw [h.count, hset]; rfl, by simp⟩
  · cases hnext
  · obtain rfl := Option.some.inj hnext
    exact h
  · cases hm
  · obtain rfl := Option.some.inj hnext
    simpa [handle, handleInfo, Handled.effects] using h
  · cases hnext
  · obtain rfl := Option.some.inj hnext
    exact h

/-- A drain, when nothing else is outstanding, leaves the flag and the outstanding message in
step. -/
theorem mirrors_drain {s s' : State} {answers : ℕ → Answer}
    (hlocal : s.overflowMethod = localDiskQueue)
    (hnext : (handleInfo s (.consumeQueue answers)).next = some s') :
    Mirrors (timersSet (handleInfo s (.consumeQueue answers)).effects).length s' := by
  simp only [handleInfo] at hnext ⊢
  split at hnext
  · rename_i hresult
    obtain rfl := Option.some.inj hnext
    refine ⟨hlocal, ?_, fun _ => consumeQueue_completed hresult⟩
    simp [Handled.effects]
  · rename_i hresult
    obtain rfl := Option.some.inj hnext
    refine ⟨hlocal, ?_, by simp⟩
    simp [Handled.effects, timersSet]

/-! ## Steps and runs -/

/-- Where the effects of a callback leave the outstanding messages. -/
theorem outstanding_handled {w w' : Timed} {h : Handled State Term Effect}
    (hw : w.handled h = some w') :
    h.next = some w'.server ∧ w'.outstanding = w.outstanding + (timersSet h.effects).length := by
  obtain ⟨s, hs, rfl⟩ := Option.map_eq_some_iff.1 hw
  refine ⟨hs, ?_⟩
  simp only [Timed.outstanding, List.length_append]
  omega

theorem outstanding_take {w : Timed} {p : Post} {rest : List Post} (hw : w.mailbox = p :: rest) :
    w.outstanding = Timed.outstanding { w with mailbox := rest } + p.own.toNat := by
  simp only [Timed.outstanding, hw, List.countP_cons]
  cases p.own <;> simp [Nat.add_assoc]

/-- A message is taken from the mailbox and handled. -/
theorem Mirrors.next {w w' : Timed} {p : Post} {rest : List Post} {answers : ℕ → Answer}
    (h : Mirrors w.outstanding w.server) (hw : w.mailbox = p :: rest)
    (hstep : Timed.receive { w with mailbox := rest } answers p = some w') :
    Mirrors w'.outstanding w'.server := by
  rw [outstanding_take hw] at h
  cases p with
  | consumeQueue =>
    obtain ⟨hnext, hout⟩ := outstanding_handled hstep
    -- the message taken was the only one
    have hnone : Timed.outstanding { w with mailbox := rest } = 0 := by
      have hcount := h.count
      have hle := Bool.toNat_le w.server.pqueueSch
      simp only [Post.own, Bool.toNat_true] at hcount
      omega
    rw [hout, hnone, Nat.zero_add]
    exact mirrors_drain h.strategy hnext
  | cast =>
    obtain rfl := Option.some.inj hstep
    exact h
  | foreign m hm =>
    obtain ⟨hnext, hout⟩ := outstanding_handled hstep
    rw [hout]
    exact Mirrors.foreign h hm hnext

/-- **One step keeps the invariant.** -/
theorem Mirrors.step {w w' : Timed} {e : TimedEvent} (h : Mirrors w.outstanding w.server)
    (hstep : w.step e = some w') : Mirrors w'.outstanding w'.server := by
  cases e with
  | arrive p =>
    obtain ⟨hp, rfl⟩ : p.own = false ∧ { w with mailbox := w.mailbox ++ [p] } = w' := by
      simpa [Timed.step] using hstep
    simpa [Timed.outstanding, List.countP_append, hp] using h
  | expire i =>
    obtain ⟨timeout, hi, rfl⟩ := Option.map_eq_some_iff.1 hstep
    obtain ⟨hlt, -⟩ := List.getElem?_eq_some_iff.1 hi
    have hout : Timed.outstanding { w with
        timers := w.timers.eraseIdx i, mailbox := w.mailbox ++ [.consumeQueue] } =
        w.outstanding := by
      simp only [Timed.outstanding, List.length_eraseIdx_of_lt hlt, List.countP_append,
        List.countP_singleton, Post.own, if_true]
      omega
    exact hout ▸ h
  | next answers =>
    simp only [Timed.step] at hstep
    split at hstep
    · cases hstep
    · rename_i p rest hw
      exact h.next hw hstep

/-- **The schedule of the drain.** In every state of every run of a producer with the strategy
`:local_disk_queue`, the flag mirrors the outstanding `:consume_queue`. -/
theorem mirrored_of_run (clientId : String) (drCallback : Term) (config : List (Term × Term))
    (ref : Term) (localQueue : Option (List Payload))
    (hlocal : Utils.lookup (.atom "queue_buffering_overflow_strategy") config localDiskQueue =
      localDiskQueue) {v : Timed}
    (hinit : Timed.start (init clientId drCallback config ref localQueue) = some v)
    (es : List TimedEvent) {w : Timed} (hrun : run Timed.step v es = some w) : Mirrored w := by
  have hstart := mirrors_init clientId drCallback config ref localQueue hlocal hinit
  have hinv : Mirrors w.outstanding w.server :=
    run_invariant (P := fun w => Mirrors w.outstanding w.server) (fun _ _ _ h hs => h.step hs)
      hstart hrun
  exact hinv.mirrored

/-- A message is queued behind the first drain, which finds it: the flag is cleared. -/
theorem mirrored_of_run_sample :
    Mirrored ⟨⟨"producer", .ref 0, .undefined, .undefined, localDiskQueue, [], false⟩, [], []⟩ :=
  mirrored_of_run "producer" .undefined [] (.ref 0) (some []) rfl
    (v := ⟨⟨"producer", .ref 0, .undefined, .undefined, localDiskQueue, [], true⟩, [], [0]⟩) rfl
    [.arrive (.foreign (.call (.queueEvent
      ⟨.str "events", .int (-1), .undefined, .str "v", .undefined, .int 0⟩)) rfl), .expire 0,
      .next (fun _ => {}), .next (fun _ => {})] rfl

end Exrdkafka.Producer
