import Exrdkafka.Foundations.Machine
import Exrdkafka.Producer.Server

/-!
# What the local queue loses

A run of the producer process is a list of messages. `World` keeps, next to the state of the
process, the tuples it owes (those found on disk and those whose `queue_event` was answered `:ok`)
and the effects of every message handled. `NoLoss` says that what is owed is what was taken off the
queue, in order, followed by what is still on it, that a tuple is taken off only when librdkafka
accepted the message or refused it for another reason than a full queue, and that a full queue ends
the drain.

`enif_produce` reports a full queue with an integer code (`result_eq_queueFull_iff`) and
`consume_queue` compares it with an atom, so the branch that keeps the message is never taken
(`getElem?_attempts`): the property holds of a run exactly when no message offered by a drain meets
a full queue.
-/

namespace Exrdkafka.Producer

open GenServer Nif Machine

/-! ## The drain -/

/-- The attempt a drain makes with the tuple `p` when librdkafka answers `a`. -/
def attemptOf (clientRef : Term) (p : Payload) (a : Answer) : Attempt :=
  ⟨p, decodeQueuedMessage p, (enifProduce clientRef (decodeQueuedMessage p) a).result, true⟩

theorem consumeQueue_cons (clientRef : Term) (n : ℕ) (p : Payload) (q : List Payload)
    (answers : ℕ → Answer) :
    consumeQueue clientRef (n + 1) (p :: q) answers =
      { consumeQueue clientRef n q fun i => answers (i + 1) with
        attempts := attemptOf clientRef p (answers 0) ::
          (consumeQueue clientRef n q fun i => answers (i + 1)).attempts } := by
  have hne := result_ne_queueFullAtom clientRef (decodeQueuedMessage p) (answers 0)
  by_cases hok : (enifProduce clientRef (decodeQueuedMessage p) (answers 0)).result = Term.ok <;>
    simp [consumeQueue, attemptOf, LocalQueue.head, LocalQueue.deq, hok, hne]

/-- The tuples of the attempts, followed by the queue left, are the queue before the drain. -/
theorem consumeQueue_split (clientRef : Term) (n : ℕ) (q : List Payload) (answers : ℕ → Answer) :
    (consumeQueue clientRef n q answers).attempts.map (·.payload) ++
      (consumeQueue clientRef n q answers).queue = q := by
  induction n generalizing q answers with
  | zero => rfl
  | succ n ih =>
    cases q with
    | nil => rfl
    | cons p q => rw [consumeQueue_cons]; simpa [attemptOf] using ih q _

/-- The `i`-th attempt of a drain is made with the `i`-th tuple of the queue. -/
theorem getElem?_attempts (clientRef : Term) (n : ℕ) (q : List Payload) (answers : ℕ → Answer)
    (i : ℕ) :
    (consumeQueue clientRef n q answers).attempts[i]? =
      if i < n then q[i]?.map fun p => attemptOf clientRef p (answers i) else none := by
  induction n generalizing q answers i with
  | zero => rfl
  | succ n ih =>
    cases q with
    | nil => simp [consumeQueue, LocalQueue.head]
    | cons p q =>
      rw [consumeQueue_cons]
      cases i with
      | zero => simp
      | succ i => simpa using ih q (fun i => answers (i + 1)) i

theorem mem_attempts {clientRef : Term} {n : ℕ} {q : List Payload} {answers : ℕ → Answer}
    {a : Attempt} :
    a ∈ (consumeQueue clientRef n q answers).attempts ↔
      ∃ i p, i < n ∧ q[i]? = some p ∧ attemptOf clientRef p (answers i) = a := by
  rw [List.mem_iff_getElem?]
  simp only [getElem?_attempts]
  constructor
  · rintro ⟨i, hi⟩
    split at hi
    · obtain ⟨p, hp, ha⟩ := Option.map_eq_some_iff.1 hi
      exact ⟨i, p, ‹_›, hp, ha⟩
    · cases hi
  · rintro ⟨i, p, hn, hp, ha⟩
    exact ⟨i, by simp [hn, hp, ha]⟩

/-! ## Runs -/

/-- The tuples a message asks to queue. -/
def Message.queued : Message → List Payload
  | .call (.queueEvent e) => [.six e]
  | _ => []

/-- The process, the tuples it owes in the order they were acknowledged, and the effects of every
message handled so far. -/
structure World where
  server : State
  owed : List Payload
  history : List (List Effect)

/-- Handling one message; the run ends when the callback raises. -/
def step (w : World) (m : Message) : Option World :=
  let h := handle w.server m
  h.next.map fun s =>
    ⟨s, w.owed ++ (if h.answer = some Term.ok then m.queued else []), w.history ++ [h.effects]⟩

/-- The world of a process that has just started: it owes what was found on disk. -/
def World.start (s : State) : World := ⟨s, s.pqueue, []⟩

/-- The attempts among some effects after which the tuple was taken off the queue. -/
def removals (es : List Effect) : List Attempt :=
  es.filterMap fun
    | .attempt a => if a.removed then some a else none
    | _ => none

/-- A tuple taken off the queue was offered as it is, and accepted, or refused for another reason
than a full queue. -/
def Settled (a : Attempt) : Prop :=
  a.event = decodeQueuedMessage a.payload ∧
    (a.result = Term.ok ∨ ∃ reason, a.result = Term.error reason ∧ a.result ≠ queueFullResult)

/-- A full queue removes nothing and ends the drain with a reschedule. -/
def Backpressure (es : List Effect) : Prop :=
  ∀ pre a post, es = pre ++ .attempt a :: post → a.result = queueFullResult →
    a.removed = false ∧ post = [.sendAfter 1000]

/-- Nothing owed is lost. -/
structure NoLoss (w : World) : Prop where
  /-- What is owed was taken off the queue, in order, or is still on it. -/
  fifo : w.owed = (w.history.flatMap removals).map (·.payload) ++ w.server.pqueue
  settled : ∀ es ∈ w.history, ∀ a ∈ removals es, Settled a
  backpressure : ∀ es ∈ w.history, Backpressure es

/-- The condition on a message: no tuple the drain gets to meets a full queue. -/
def NoQueueFull (w : World) : Message → Prop
  | .info (.consumeQueue answers) => ∀ i p, i < maxQueueProcessMsg → w.server.pqueue[i]? = some p →
      ¬ QueueFull w.server.ref (decodeQueuedMessage p) (answers i)
  | _ => True

theorem removals_map_attempt (as : List Attempt) (h : ∀ a ∈ as, a.removed = true) :
    removals (as.map .attempt) = as := by
  induction as with
  | nil => rfl
  | cons a as ih =>
    have ha := h a (by simp)
    simpa [removals, ha] using ih fun b hb => h b (by simp [hb])

@[simp] theorem removals_append (es fs : List Effect) :
    removals (es ++ fs) = removals es ++ removals fs :=
  List.filterMap_append

@[simp] theorem removals_sendAfter (t : ℕ) : removals [.sendAfter t] = [] := rfl

theorem removals_of_no_attempt {es : List Effect} (h : ∀ a, .attempt a ∉ es) :
    removals es = [] := by
  rw [removals, List.filterMap_eq_nil_iff]
  intro e he
  cases e with
  | attempt a => exact absurd he (h a)
  | _ => rfl

/-- Appending one message to a history without loss: the queues must add up, and the message's own
effects decide. -/
theorem noLoss_push {w : World} (hw : NoLoss w) {s : State} {queued : List Payload}
    {es : List Effect}
    (hsplit : w.server.pqueue ++ queued = (removals es).map (·.payload) ++ s.pqueue) :
    NoLoss ⟨s, w.owed ++ queued, w.history ++ [es]⟩ ↔
      (∀ a ∈ removals es, Settled a) ∧ Backpressure es := by
  constructor
  · intro h
    exact ⟨h.settled es (by simp), h.backpressure es (by simp)⟩
  · rintro ⟨hset, hback⟩
    refine ⟨?_, fun fs hfs => ?_, fun fs hfs => ?_⟩
    · simp [hw.fifo, hsplit]
    · rcases List.mem_append.1 hfs with hfs | hfs
      · exact hw.settled fs hfs
      · exact (List.mem_singleton.1 hfs) ▸ hset
    · rcases List.mem_append.1 hfs with hfs | hfs
      · exact hw.backpressure fs hfs
      · exact (List.mem_singleton.1 hfs) ▸ hback

/-- A message without produce calls loses nothing when it queues what it acknowledges. -/
theorem noLoss_push_quiet {w : World} (hw : NoLoss w) {s : State} {queued : List Payload}
    {es : List Effect} (hq : s.pqueue = w.server.pqueue ++ queued) (hes : ∀ a, .attempt a ∉ es) :
    NoLoss ⟨s, w.owed ++ queued, w.history ++ [es]⟩ := by
  have hnil := removals_of_no_attempt hes
  refine (noLoss_push hw (by simp [hnil, hq])).2 ⟨by simp [hnil], ?_⟩
  rintro pre a post rfl
  exact absurd (by simp) (hes a)

/-! ## One drain -/

theorem removed_of_mem {clientRef : Term} {n : ℕ} {q : List Payload} {answers : ℕ → Answer} :
    ∀ a ∈ (consumeQueue clientRef n q answers).attempts, a.removed = true := by
  intro a ha
  obtain ⟨i, p, -, -, rfl⟩ := mem_attempts.1 ha
  rfl

/-- The effects of a drain are its attempts, then the reschedule if it did not empty the queue. -/
theorem handleInfo_consumeQueue (s : State) (answers : ℕ → Answer) :
    ∃ s' post, handleInfo s (.consumeQueue answers) = .noreply s'
        ((consumeQueue s.ref maxQueueProcessMsg s.pqueue answers).attempts.map .attempt ++ post) ∧
      s'.pqueue = (consumeQueue s.ref maxQueueProcessMsg s.pqueue answers).queue ∧
      s'.overflowMethod = s.overflowMethod ∧ (post = [] ∨ post = [.sendAfter 1000]) := by
  simp only [handleInfo]
  split
  · refine ⟨{ s with pqueue := _, pqueueSch := false }, [], ?_, rfl, rfl, Or.inl rfl⟩
    rw [List.append_nil]
  · exact ⟨{ s with pqueue := _, pqueueSch := true }, [.sendAfter 1000], rfl, rfl, rfl, Or.inr rfl⟩

theorem settled_attemptOf {clientRef : Term} {p : Payload} {a : Answer} :
    Settled (attemptOf clientRef p a) ↔ ¬ QueueFull clientRef (decodeQueuedMessage p) a := by
  rw [← result_eq_queueFull_iff]
  constructor
  · rintro ⟨-, h | ⟨reason, -, h⟩⟩ hfull
    · exact queueFullResult_ne_ok (hfull.symm.trans h)
    · exact h hfull
  · intro h
    refine ⟨rfl, ?_⟩
    rcases result_ok_or_error clientRef (decodeQueuedMessage p) a with hr | ⟨reason, hr⟩
    · exact Or.inl hr
    · exact Or.inr ⟨reason, hr, h⟩

/-- A drain loses nothing exactly when no tuple it gets to meets a full queue. -/
theorem drain_good_iff (clientRef : Term) (n : ℕ) (q : List Payload) (answers : ℕ → Answer)
    {post : List Effect} (hpost : post = [] ∨ post = [.sendAfter 1000]) :
    ((∀ a ∈ (consumeQueue clientRef n q answers).attempts, Settled a) ∧
        Backpressure ((consumeQueue clientRef n q answers).attempts.map .attempt ++ post)) ↔
      ∀ i p, i < n → q[i]? = some p →
        ¬ QueueFull clientRef (decodeQueuedMessage p) (answers i) := by
  constructor
  · rintro ⟨hset, -⟩ i p hi hp
    exact settled_attemptOf.1 (hset _ (mem_attempts.2 ⟨i, p, hi, hp, rfl⟩))
  · intro h
    have hset : ∀ a ∈ (consumeQueue clientRef n q answers).attempts, Settled a := by
      intro a ha
      obtain ⟨i, p, hi, hp, rfl⟩ := mem_attempts.1 ha
      exact settled_attemptOf.2 (h i p hi hp)
    refine ⟨hset, fun pre a rest hes hfull => ?_⟩
    -- no attempt of this drain met a full queue
    have ha : a ∈ (consumeQueue clientRef n q answers).attempts := by
      have hmem : Effect.attempt a ∈
          (consumeQueue clientRef n q answers).attempts.map .attempt ++ post := by simp [hes]
      rcases hpost with rfl | rfl <;> simpa using hmem
    rcases (hset a ha).2 with hok | ⟨reason, -, hne⟩
    · exact absurd (hfull.symm.trans hok) queueFullResult_ne_ok
    · exact absurd hfull hne

/-! ## Steps and runs -/

/-- What a message can do to a process with the strategy `:local_disk_queue`: queue what it
acknowledges, without a produce call, or drain the queue. -/
theorem step_cases {w w' : World} {m : Message} (hlocal : w.server.overflowMethod = localDiskQueue)
    (h : step w m = some w') :
    (∃ s' queued es, w' = ⟨s', w.owed ++ queued, w.history ++ [es]⟩ ∧
      s'.pqueue = w.server.pqueue ++ queued ∧ s'.overflowMethod = localDiskQueue ∧
      (∀ a, .attempt a ∉ es) ∧ NoQueueFull w m) ∨
    (∃ answers s' post, m = .info (.consumeQueue answers) ∧
      w' = ⟨s', w.owed ++ [], w.history ++ [(consumeQueue w.server.ref maxQueueProcessMsg
        w.server.pqueue answers).attempts.map .attempt ++ post]⟩ ∧
      s'.pqueue = (consumeQueue w.server.ref maxQueueProcessMsg w.server.pqueue answers).queue ∧
      s'.overflowMethod = localDiskQueue ∧ (post = [] ∨ post = [.sendAfter 1000])) := by
  rcases m with (e | _ | r) | (answers | ⟨status, message⟩ | _ | i)
  · simp only [step, handle, handleCall, hlocal, if_true] at h
    obtain rfl := Option.some.inj h
    refine Or.inl ⟨_, [.six e], _, rfl, rfl, rfl, fun a => ?_, trivial⟩
    cases hs : w.server.pqueueSch <;> simp [Handled.effects, scheduleConsumeQueue]
  · cases h
  · obtain rfl := Option.some.inj h
    exact Or.inl ⟨w.server, [], [], rfl, by simp, hlocal, by simp, trivial⟩
  · obtain ⟨s', post, hs', hqueue, hover, hpost⟩ := handleInfo_consumeQueue w.server answers
    simp only [step, handle, hs'] at h
    obtain rfl := Option.some.inj h
    exact Or.inr ⟨answers, s', post, rfl, rfl, hqueue, hover.trans hlocal, hpost⟩
  · obtain rfl := Option.some.inj h
    refine Or.inl ⟨w.server, [], callCallback w.server.callback status message, rfl, by simp,
      hlocal, fun a => ?_, trivial⟩
    unfold callCallback
    split <;> simp
  · cases h
  · obtain rfl := Option.some.inj h
    exact Or.inl ⟨w.server, [], [], rfl, by simp, hlocal, by simp, trivial⟩

theorem step_overflowMethod {w w' : World} {m : Message}
    (hlocal : w.server.overflowMethod = localDiskQueue) (h : step w m = some w') :
    w'.server.overflowMethod = localDiskQueue := by
  obtain ⟨s', queued, es, rfl, -, ho, -⟩ | ⟨answers, s', post, -, rfl, -, ho, -⟩ :=
    step_cases hlocal h
  · exact ho
  · exact ho

/-- One message: nothing is lost exactly when it is not a drain that meets a full queue. -/
theorem noLoss_step {w w' : World} {m : Message}
    (hlocal : w.server.overflowMethod = localDiskQueue) (hw : NoLoss w) (h : step w m = some w') :
    NoLoss w' ↔ NoQueueFull w m := by
  obtain ⟨s', queued, es, rfl, hq, -, hes, hm⟩ | ⟨answers, s', post, rfl, rfl, hq, -, hpost⟩ :=
    step_cases hlocal h
  · exact iff_of_true (noLoss_push_quiet hw hq hes) hm
  · have hrem : removals ((consumeQueue w.server.ref maxQueueProcessMsg w.server.pqueue
        answers).attempts.map .attempt ++ post) =
        (consumeQueue w.server.ref maxQueueProcessMsg w.server.pqueue answers).attempts := by
      rcases hpost with rfl | rfl <;> simp [removals_map_attempt _ removed_of_mem]
    have hsplit := consumeQueue_split w.server.ref maxQueueProcessMsg w.server.pqueue answers
    rw [noLoss_push hw (by rw [hrem, hq, hsplit, List.append_nil]), hrem]
    exact drain_good_iff _ _ _ _ hpost

theorem noLoss_start (s : State) : NoLoss (World.start s) :=
  ⟨rfl, by simp [World.start], by simp [World.start]⟩

/-- **What the local queue loses.** From the start of a process with the strategy
`:local_disk_queue`, nothing owed is lost at any point of a run exactly when no drain of the run
offers a tuple to a full queue. -/
theorem always_noLoss_iff (clientId : String) (drCallback : Term) (config : List (Term × Term))
    (ref : Term) (q : List Payload) {s : State}
    (hinit : (init clientId drCallback config ref (some q)).next = some s)
    (hlocal : Utils.lookup (.atom "queue_buffering_overflow_strategy") config localDiskQueue =
      localDiskQueue) {ms : List Message} {w : World}
    (hrun : run step (World.start s) ms = some w) :
    Always step NoLoss (World.start s) ms ↔ Along step NoQueueFull (World.start s) ms := by
  have hs : s.overflowMethod = localDiskQueue := by
    obtain rfl := Option.some.inj hinit
    exact hlocal
  exact always_iff_along (I := fun w => w.server.overflowMethod = localDiskQueue)
    (fun _ _ _ => step_overflowMethod) (fun _ _ _ => noLoss_step) hs
    (noLoss_start s) hrun

/-- A message without key, headers and timestamp. -/
def sampleEvent : Event := ⟨.str "events", .int (-1), .undefined, .str "v", .undefined, .int 0⟩

/-- A producer that has just started on an empty queue. -/
def sampleState : State := ⟨"producer", .ref 0, .undefined, .undefined, localDiskQueue, [], true⟩

/-- A message is queued and the next drain meets a full queue: it is discarded. -/
theorem queueFull_discards : ¬ Always step NoLoss (World.start sampleState)
    [.call (.queueEvent sampleEvent),
      .info (.consumeQueue fun _ => { code := respErrQueueFull })] := by
  intro h
  have hrun : run step (World.start sampleState)
      [.call (.queueEvent sampleEvent),
        .info (.consumeQueue fun _ => { code := respErrQueueFull })] =
      some ⟨{ sampleState with pqueueSch := false }, [.six sampleEvent],
        [[], [.attempt ⟨.six sampleEvent, sampleEvent, queueFullResult, true⟩]]⟩ := rfl
  have hset := (h.last hrun).settled
    [.attempt ⟨.six sampleEvent, sampleEvent, queueFullResult, true⟩] (by simp)
    ⟨.six sampleEvent, sampleEvent, queueFullResult, true⟩ (by simp [removals])
  rcases hset.2 with hok | ⟨reason, -, hne⟩
  · exact queueFullResult_ne_ok hok
  · exact hne rfl

/-- The same run when librdkafka accepts the message. -/
theorem always_noLoss_iff_sample :
    Always step NoLoss (World.start sampleState)
        [.call (.queueEvent sampleEvent), .info (.consumeQueue fun _ => {})] ↔
      Along step NoQueueFull (World.start sampleState)
        [.call (.queueEvent sampleEvent), .info (.consumeQueue fun _ => {})] :=
  always_noLoss_iff "producer" .undefined [] (.ref 0) [] rfl rfl
    (w := ⟨{ sampleState with pqueueSch := false }, [.six sampleEvent],
      [[], [.attempt ⟨.six sampleEvent, sampleEvent, .ok, true⟩]]⟩) rfl

end Exrdkafka.Producer
