import Exrdkafka.ConsumerGroup.History
import Exrdkafka.Producer.Server

/-!
# The statistics of a client

librdkafka sends its statistics to the process of a client as JSON, `{:stats, json}`. Both kinds of
clients are to pass them to a callback and to answer `:get_stats` with the last ones. `Session` is a
client with what it has received and done; the JSON decoder is a parameter.

* `Protocol`: no handler has raised, the configured callback was called once for each message with
  the client and the decoded statistics, and each `:get_stats` was answered with the last ones.
* `always_protocol_iff`: the state of a producer has no place for statistics, so any such message
  ends it. A group keeps and passes on what `Jason.decode` returns, `{:ok, statistics}`, and calls a
  callback unless it is configured as `:undefined`.
-/

namespace Exrdkafka.Statistics

open GenServer Machine

/-! ## The clients -/

/-- A client of either kind. -/
inductive Client where
  | producer (s : Producer.State)
  | group (w : ConsumerGroup.World)

/-- What a client receives. -/
inductive Input where
  /-- `{:stats, json}` -/
  | stats (json : Term)
  /-- `:get_stats` -/
  | getStats
  /-- any other message of a producer -/
  | producer (m : Producer.Message)
  /-- a delivery report on which the callback of a producer raises -/
  | reportRaised (status message : Term)
  /-- any other message of a consumer group -/
  | group (m : ConsumerGroup.Info)
  /-- any other call of a consumer group -/
  | groupCall (request : Term)

/-- A client that has just started under an id, with the configuration of the library. -/
inductive Started (clientId : String) (config : List (Term × Term)) : Client → Prop where
  | producer {drCallback ref : Term} {localQueue : Option (List Producer.Payload)}
      {s : Producer.State} :
      (Producer.init clientId drCallback config ref localQueue).next = some s →
      Started clientId config (.producer s)
  | group {topics : List (List UInt8 × ConsumerGroup.Settings)} {consumerNew : Except Term Term}
      {s : ConsumerGroup.State} {es : List ConsumerGroup.InitEffect} :
      ConsumerGroup.init clientId topics config consumerNew = .ok (s, es) →
      Started clientId config (.group (ConsumerGroup.World.start s))

/-- A call of a statistics callback: the callback, the client and the statistics. -/
abbrev CallbackCall := Term × String × Term

/-- The calls of the statistics callback among some effects. -/
def callsOf (es : List ConsumerGroup.Effect) : List CallbackCall :=
  es.filterMap fun
    | .statsCallback callback clientId stats => some (callback, clientId, stats)
    | _ => none

/-- What a handler comes to. -/
structure Turn where
  client : Client
  raised : Bool
  called : List CallbackCall
  reply : Option (List Term)

/-- A callback of a producer has returned or raised. A producer calls no statistics callback. -/
def producerTurn (s : Producer.State) (h : Handled Producer.State Term Producer.Effect) : Turn :=
  ⟨.producer (h.next.getD s), h.raised, [], h.answer.map fun r => [r]⟩

/-- A callback of a group has returned or raised. -/
def groupTurn (w : ConsumerGroup.World)
    (h : Handled ConsumerGroup.State (List Term) ConsumerGroup.Effect) : Turn :=
  ⟨.group (w.handled h), h.raised, callsOf h.effects, h.answer⟩

/-- What `Jason.decode` returns, as a term. -/
def jason : Except Term Term → Term
  | .ok stats => .tuple [.ok, stats]
  | .error reason => .error reason

/-- A message or call that is about statistics. -/
def isStats : Producer.Message → Bool
  | .info (.stats _) | .call .getStats => true
  | _ => false

/-- A message of a group that is about statistics. -/
def isGroupStats : ConsumerGroup.Info → Bool
  | .stats _ => true
  | _ => false

section Decode

variable (decode : Term → Except Term Term)

/-- The handler of a message; `none` when the client does not receive such messages. -/
def Client.receive : Client → Input → Option Turn
  | .producer s, .stats json => some (producerTurn s (Producer.handleInfo s (.stats json)))
  | .producer s, .getStats => some (producerTurn s (Producer.handleCall s .getStats))
  | .producer s, .producer m =>
    if isStats m then none else some (producerTurn s (Producer.handle s m))
  | .producer s, .reportRaised _ _ =>
    if s.callback = .undefined then none else some ⟨.producer s, true, [], none⟩
  | .group w, .stats json =>
    some (groupTurn w (ConsumerGroup.handleInfo w.next w.state (.stats (jason (decode json)))))
  | .group w, .getStats => some (groupTurn w (ConsumerGroup.handleCall w.state .getStats))
  | .group w, .group m =>
    if isGroupStats m || !w.newQueues m then none
    else some (groupTurn w (ConsumerGroup.handleInfo w.next w.state m))
  | .group w, .groupCall request =>
    some (groupTurn w (ConsumerGroup.handleCall w.state (.other request)))
  | _, _ => none

/-- The statistics of a message; `none` when they are not valid JSON. -/
def Input.decoded : Input → Option (List Term)
  | .stats json =>
    match decode json with
    | .ok value => some [value]
    | .error _ => none
  | _ => some []

/-! ## The protocol -/

/-- A client with the statistics it has received, the calls of the callback it has made, and the
answers to `:get_stats`, each with the statistics it is to give. -/
structure Session where
  client : Client
  raised : Bool
  received : List Term
  called : List CallbackCall
  replies : List (Option (List Term) × Term)

/-- A client before its first message. -/
def Session.start (c : Client) : Session := ⟨c, false, [], [], []⟩

/-- The process runs. -/
def Session.running (s : Session) : Bool :=
  !s.raised &&
    match s.client with
    | .producer _ => true
    | .group w => w.running

/-- The last statistics received, `nil` if there are none. -/
def due (received : List Term) : Term := received.getLast?.getD (.atom "nil")

/-- The answers to a message. -/
def repliesTo (received : List Term) (reply : Option (List Term)) :
    Input → List (Option (List Term) × Term)
  | .getStats => [(reply, due received)]
  | _ => []

/-- One message. -/
def Session.step (s : Session) (i : Input) : Option Session :=
  if s.running then
    (i.decoded decode).bind fun stats => (s.client.receive decode i).map fun t =>
      { client := t.client
        raised := t.raised
        received := s.received ++ stats
        called := s.called ++ t.called
        replies := s.replies ++ repliesTo s.received t.reply i }
  else none

end Decode

/-- The configured statistics callback. -/
def configured (config : List (Term × Term)) : Option Term :=
  let callback := Utils.lookup (.atom "stats_callback") config
  if callback = .undefined ∨ callback = .atom "nil" then none else some callback

/-- The calls that are due for some statistics. -/
def dueCalls (callback : Option Term) (clientId : String) (received : List Term) :
    List CallbackCall :=
  match callback with
  | some c => received.map fun stats => (c, clientId, stats)
  | none => []

/-- The statistics protocol. -/
structure Protocol (callback : Option Term) (clientId : String) (s : Session) : Prop where
  safe : s.raised = false
  called : s.called = dueCalls callback clientId s.received
  replies : ∀ r ∈ s.replies, r.1 = some [.ok, r.2]

/-- A message of the rebalance callback that a group can handle: the consumers of an assignment
start, and the partitions of a revocation are in the map. -/
def Fits (w : ConsumerGroup.World) : ConsumerGroup.Info → Prop
  | .assignPartitions ps => ∀ p ∈ ps, ConsumerGroup.startLink w.state p.1 p.2 = true
  | .revokePartitions tps => ∀ tp ∈ tps, tp ∈ w.state.activeTopicsMap
  | _ => True

/-- The condition on a message. -/
def Harmless (s : Session) : Input → Prop
  | .stats _ =>
    match s.client with
    | .producer _ => False
    | .group w => w.state.statsCb = .undefined
  | .getStats =>
    match s.client with
    | .producer _ => False
    | .group w => w.state.stats = .atom "nil"
  | .reportRaised _ _ => False
  | .group m =>
    match s.client with
    | .producer _ => True
    | .group w => Fits w m
  | _ => True

/-! ## What a group does to its statistics -/

@[simp] theorem callsOf_starts (cs : List (ConsumerGroup.TopicPartition × ConsumerGroup.Entry)) :
    callsOf (ConsumerGroup.starts cs) = [] := by
  simp [callsOf, ConsumerGroup.starts, List.filterMap_map]

@[simp] theorem callsOf_revokes (es : List ConsumerGroup.Entry) :
    callsOf (ConsumerGroup.revokes es) = [] := by
  rw [callsOf, List.filterMap_eq_nil_iff]
  intro e he
  simp only [ConsumerGroup.revokes, ConsumerGroup.stops, List.mem_append, List.mem_flatMap,
    List.mem_cons, List.not_mem_nil, or_false] at he
  rcases he with ⟨_, -, rfl | rfl⟩ | rfl <;> rfl

/-- The fields about statistics. -/
def statsFields (s : ConsumerGroup.State) : String × Term × Term := (s.clientId, s.statsCb, s.stats)

/-- Any other message leaves the fields about statistics alone. -/
theorem statsFields_handled {w : ConsumerGroup.World} {m : ConsumerGroup.Info}
    (hm : isGroupStats m = false) :
    statsFields (w.handled (ConsumerGroup.handleInfo w.next w.state m)).state =
      statsFields w.state := by
  cases m with
  | stats decoded => cases hm
  | assignPartitions ps =>
    simp only [ConsumerGroup.handleInfo]
    split <;> rfl
  | revokePartitions tps =>
    simp only [ConsumerGroup.handleInfo]
    split <;> rfl
  | exit sender reason =>
    simp only [ConsumerGroup.handleInfo]
    split_ifs <;> rfl
  | other info => rfl

/-- A message that the group can handle makes no call of the callback. -/
theorem Fits.handled {w : ConsumerGroup.World} {m : ConsumerGroup.Info} (h : Fits w m)
    (hm : isGroupStats m = false) :
    (ConsumerGroup.handleInfo w.next w.state m).raised = false ∧
      callsOf (ConsumerGroup.handleInfo w.next w.state m).effects = [] := by
  cases m with
  | stats decoded => cases hm
  | assignPartitions ps =>
    rw [ConsumerGroup.handleInfo, ConsumerGroup.reducePartitions_ok h]
    exact ⟨rfl, callsOf_starts _⟩
  | revokePartitions tps =>
    obtain ⟨es, hes⟩ := ConsumerGroup.exists_entries h
    rw [ConsumerGroup.handleInfo, ConsumerGroup.getPidQueuePairs, hes,
      ConsumerGroup.stopConsumers_some]
    exact ⟨rfl, callsOf_revokes es⟩
  | exit sender reason =>
    simp only [ConsumerGroup.handleInfo]
    split_ifs <;> exact ⟨rfl, rfl⟩
  | other info => exact ⟨rfl, rfl⟩

/-- On any other message of the rebalance callback the handler raises. -/
theorem raised_of_not_fits {w : ConsumerGroup.World} {m : ConsumerGroup.Info} (h : ¬ Fits w m) :
    (ConsumerGroup.handleInfo w.next w.state m).raised = true := by
  cases m with
  | assignPartitions ps =>
    obtain ⟨pre, a, answer, post, rfl, hpre, ha⟩ := ConsumerGroup.exists_first_failure h
    rw [ConsumerGroup.handleInfo, ConsumerGroup.reducePartitions_fail hpre ha]
    rfl
  | revokePartitions tps =>
    obtain ⟨tp, htp, hno⟩ : ∃ tp ∈ tps, tp ∉ w.state.activeTopicsMap := by simpa [Fits] using h
    have hnone : none ∈ ConsumerGroup.getPidQueuePairs w.state.activeTopicsMap tps :=
      List.mem_map.2 ⟨tp, htp, AList.lookup_eq_none.2 hno⟩
    have hfail := ConsumerGroup.stopConsumers_none hnone
    simp only [ConsumerGroup.handleInfo]
    split
    · rename_i hok
      simp [hok] at hfail
    · rfl
  | _ => exact absurd trivial h

/-- A producer raises on no message but those about statistics. -/
theorem producer_not_raised (s : Producer.State) {m : Producer.Message} (hm : isStats m = false) :
    (Producer.handle s m).raised = false := by
  rcases m with (e | _ | r) | (answers | ⟨status, message⟩ | _ | i)
  · simp only [Producer.handle, Producer.handleCall]
    split_ifs <;> rfl
  · cases hm
  · rfl
  · simp only [Producer.handle, Producer.handleInfo]
    split <;> rfl
  · rfl
  · cases hm
  · rfl

/-! ## The protocol, message by message -/

section Steps

variable {callback : Option Term} {clientId : String}

/-- A message that is not about statistics keeps the protocol unless its handler raises. -/
theorem protocol_quiet {s t : Session} (h : Protocol callback clientId s)
    (hreceived : t.received = s.received) (hcalled : t.raised = false → t.called = s.called)
    (hreplies : t.replies = s.replies) : Protocol callback clientId t ↔ t.raised = false := by
  refine ⟨fun ht => ht.safe, fun hsafe => ⟨hsafe, ?_, hreplies ▸ h.replies⟩⟩
  rw [hcalled hsafe, hreceived, h.called]

theorem not_protocol_of_raised {t : Session} (h : t.raised = true) :
    ¬ Protocol callback clientId t :=
  fun ht => Bool.false_ne_true (ht.safe.symm.trans h)

/-- The state of a group agrees with the statistics it has received. -/
structure Recorded (config : List (Term × Term)) (clientId : String) (received : List Term)
    (s : ConsumerGroup.State) : Prop where
  clientId : s.clientId = clientId
  statsCb : s.statsCb = Consumer.keywordGet config "stats_callback" (.atom "nil")
  stats : s.stats = (received.getLast?.map fun value => jason (.ok value)).getD (.atom "nil")

/-- A term is not its own success. -/
theorem ne_jason_ok (value : Term) : value ≠ jason (.ok value) := by
  intro h
  have hsize := congrArg sizeOf h
  simp [jason] at hsize
  omega

/-- The state of a group holds the statistics due only before the first message. -/
theorem Recorded.stats_eq_due_iff {config : List (Term × Term)} {received : List Term}
    {s : ConsumerGroup.State} (h : Recorded config clientId received s) :
    s.stats = due received ↔ s.stats = .atom "nil" := by
  rw [h.stats, due]
  cases received.getLast? with
  | none => simp
  | some value =>
    refine iff_of_false (fun heq => ne_jason_ok value heq.symm) ?_
    simp [jason]

/-- A callback configured as `:undefined` is no callback. -/
theorem configured_of_undefined {config : List (Term × Term)}
    (h : Consumer.keywordGet config "stats_callback" (.atom "nil") = .undefined) :
    configured config = none := by
  have hlookup : Utils.lookup (.atom "stats_callback") config = .undefined := by
    unfold Consumer.keywordGet Utils.lookup at h
    unfold Utils.lookup
    split
    · simpa [*] using h
    · rfl
  simp [configured, hlookup]

/-- The calls due for one more message. -/
theorem dueCalls_concat (received : List Term) (value : Term) :
    dueCalls callback clientId (received ++ [value]) =
      dueCalls callback clientId received ++ dueCalls callback clientId [value] := by
  cases callback <;> simp [dueCalls]

/-- What a group passes on is what is due only if it passes nothing on. -/
theorem callStatsCallback_due_iff {config : List (Term × Term)} {received : List Term}
    {s : ConsumerGroup.State} (h : Recorded config clientId received s) (value : Term) :
    callsOf (ConsumerGroup.callStatsCallback s.statsCb s.clientId (jason (.ok value))) =
        dueCalls (configured config) clientId [value] ↔ s.statsCb = .undefined := by
  constructor
  · intro heq
    by_contra hne
    rw [ConsumerGroup.callStatsCallback, if_neg hne] at heq
    cases hc : configured config with
    | none => simp [callsOf, dueCalls, hc] at heq
    | some c =>
      simp only [callsOf, dueCalls, hc, List.filterMap_cons, List.filterMap_nil, List.map_cons,
        List.map_nil, List.cons.injEq, Prod.mk.injEq, and_true] at heq
      exact ne_jason_ok value heq.2.2.symm
  · intro hundef
    rw [ConsumerGroup.callStatsCallback, if_pos hundef,
      configured_of_undefined (h.statsCb.symm.trans hundef)]
    rfl

end Steps

/-! ## Runs -/

section Runs

variable {decode : Term → Except Term Term} {config : List (Term × Term)} {clientId : String}

/-- The invariant: a group has recorded the statistics received. -/
def Keeps (config : List (Term × Term)) (clientId : String) (s : Session) : Prop :=
  ∀ w, s.client = .group w → Recorded config clientId s.received w.state

/-- The parts of a step. -/
theorem step_parts {s t : Session} {i : Input} (h : s.step decode i = some t) :
    ∃ values turn, i.decoded decode = some values ∧ s.client.receive decode i = some turn ∧
      t = ⟨turn.client, turn.raised, s.received ++ values, s.called ++ turn.called,
        s.replies ++ repliesTo s.received turn.reply i⟩ := by
  unfold Session.step at h
  split at h
  · obtain ⟨values, hvalues, h⟩ := Option.bind_eq_some_iff.1 h
    obtain ⟨turn, hturn, rfl⟩ := Option.map_eq_some_iff.1 h
    exact ⟨values, turn, hvalues, hturn, rfl⟩
  · cases h

theorem decoded_stats {json : Term} {values : List Term}
    (h : (Input.stats json).decoded decode = some values) :
    ∃ value, decode json = .ok value ∧ values = [value] := by
  simp only [Input.decoded] at h
  split at h
  · exact ⟨_, ‹_›, (Option.some.inj h).symm⟩
  · cases h

/-- **One message to a producer.** -/
theorem protocol_producer {s t : Session} {i : Input} {p : Producer.State}
    (hp : Protocol (configured config) clientId s) (hc : s.client = .producer p)
    (hstep : s.step decode i = some t) :
    Protocol (configured config) clientId t ↔ Harmless s i := by
  obtain ⟨values, turn, hvalues, hturn, rfl⟩ := step_parts hstep
  rw [hc] at hturn
  cases i with
  | stats json =>
    obtain rfl := Option.some.inj hturn
    exact iff_of_false (not_protocol_of_raised rfl) (by simp [Harmless, hc])
  | getStats =>
    obtain rfl := Option.some.inj hturn
    exact iff_of_false (not_protocol_of_raised rfl) (by simp [Harmless, hc])
  | producer m =>
    obtain rfl := Option.some.inj hvalues
    simp only [Client.receive] at hturn
    split at hturn
    · cases hturn
    · rename_i hm
      obtain rfl := Option.some.inj hturn
      have hsafe := producer_not_raised p (Bool.eq_false_of_not_eq_true hm)
      rw [protocol_quiet hp (by simp) (by simp [producerTurn]) (by simp [repliesTo])]
      exact iff_of_true hsafe trivial
  | reportRaised status message =>
    simp only [Client.receive] at hturn
    split at hturn
    · cases hturn
    · obtain rfl := Option.some.inj hturn
      exact iff_of_false (not_protocol_of_raised rfl) id
  | group m => cases hturn
  | groupCall request => cases hturn

/-- The statistics of a message, when they reach a group. -/
theorem protocol_stats {s t : Session} {json : Term} {w : ConsumerGroup.World}
    (hrec : Recorded config clientId s.received w.state)
    (hp : Protocol (configured config) clientId s) (hc : s.client = .group w)
    (hstep : s.step decode (.stats json) = some t) :
    Protocol (configured config) clientId t ↔ w.state.statsCb = .undefined := by
  obtain ⟨values, turn, hvalues, hturn, rfl⟩ := step_parts hstep
  obtain ⟨value, hvalue, rfl⟩ := decoded_stats hvalues
  rw [hc] at hturn
  obtain rfl := Option.some.inj hturn
  have hcalled : (groupTurn w (ConsumerGroup.handleInfo w.next w.state
      (.stats (jason (decode json))))).called = callsOf (ConsumerGroup.callStatsCallback
        w.state.statsCb w.state.clientId (jason (.ok value))) := by
    rw [hvalue]
    rfl
  rw [← callStatsCallback_due_iff hrec value]
  constructor
  · intro ht
    have hall := ht.called
    rw [hcalled, dueCalls_concat, hp.called] at hall
    exact List.append_cancel_left hall
  · intro hdue
    refine ⟨rfl, ?_, by simpa [repliesTo] using hp.replies⟩
    rw [hcalled, dueCalls_concat, hp.called, hdue]

/-- A call for the statistics, when it reaches a group. -/
theorem protocol_getStats {s t : Session} {w : ConsumerGroup.World}
    (hrec : Recorded config clientId s.received w.state)
    (hp : Protocol (configured config) clientId s) (hc : s.client = .group w)
    (hstep : s.step decode .getStats = some t) :
    Protocol (configured config) clientId t ↔ w.state.stats = .atom "nil" := by
  obtain ⟨values, turn, hvalues, hturn, rfl⟩ := step_parts hstep
  obtain rfl := Option.some.inj hvalues
  rw [hc] at hturn
  obtain rfl := Option.some.inj hturn
  rw [← hrec.stats_eq_due_iff]
  constructor
  · intro ht
    have hreply := ht.replies (some [.ok, w.state.stats], due s.received) (by
      simp [repliesTo, groupTurn, ConsumerGroup.handleCall, Handled.answer])
    simpa using hreply
  · intro hdue
    refine ⟨rfl, ?_, fun r hr => ?_⟩
    · simpa [groupTurn, ConsumerGroup.handleCall, Handled.effects, callsOf] using hp.called
    · rcases List.mem_append.1 hr with hr | hr
      · exact hp.replies r hr
      · obtain rfl := List.mem_singleton.1 hr
        simp [groupTurn, ConsumerGroup.handleCall, Handled.answer, hdue]

/-- A message that is not about statistics, when it reaches a group. -/
theorem receive_other {w : ConsumerGroup.World} {m : ConsumerGroup.Info} {turn : Turn}
    (h : (Client.group w).receive decode (.group m) = some turn) :
    isGroupStats m = false ∧
      turn = groupTurn w (ConsumerGroup.handleInfo w.next w.state m) := by
  simp only [Client.receive] at h
  split at h
  · cases h
  · rename_i hm
    rw [Bool.or_eq_true, not_or] at hm
    exact ⟨Bool.eq_false_of_not_eq_true hm.1, (Option.some.inj h).symm⟩

theorem protocol_fits {s t : Session} {m : ConsumerGroup.Info} {w : ConsumerGroup.World}
    (hp : Protocol (configured config) clientId s) (hc : s.client = .group w)
    (hstep : s.step decode (.group m) = some t) :
    Protocol (configured config) clientId t ↔ Fits w m := by
  obtain ⟨values, turn, hvalues, hturn, rfl⟩ := step_parts hstep
  obtain rfl := Option.some.inj hvalues
  obtain ⟨hother, rfl⟩ := receive_other (hc ▸ hturn)
  by_cases hfits : Fits w m
  · obtain ⟨hsafe, hcalls⟩ := hfits.handled hother
    rw [protocol_quiet hp (by simp) (by simp [groupTurn, hcalls]) (by simp [repliesTo])]
    exact iff_of_true hsafe hfits
  · exact iff_of_false (not_protocol_of_raised (raised_of_not_fits hfits)) hfits

/-- **One message to a group.** -/
theorem protocol_group {s t : Session} {i : Input} {w : ConsumerGroup.World}
    (hrec : Recorded config clientId s.received w.state)
    (hp : Protocol (configured config) clientId s) (hc : s.client = .group w)
    (hstep : s.step decode i = some t) :
    Protocol (configured config) clientId t ↔ Harmless s i := by
  cases i with
  | stats json =>
    rw [protocol_stats hrec hp hc hstep]
    simp [Harmless, hc]
  | getStats =>
    rw [protocol_getStats hrec hp hc hstep]
    simp [Harmless, hc]
  | producer m =>
    obtain ⟨values, turn, -, hturn, -⟩ := step_parts hstep
    rw [hc] at hturn
    cases hturn
  | reportRaised status message =>
    obtain ⟨values, turn, -, hturn, -⟩ := step_parts hstep
    rw [hc] at hturn
    cases hturn
  | group m =>
    rw [protocol_fits hp hc hstep]
    simp [Harmless, hc]
  | groupCall request =>
    obtain ⟨values, turn, hvalues, hturn, rfl⟩ := step_parts hstep
    obtain rfl := Option.some.inj hvalues
    rw [hc] at hturn
    obtain rfl := Option.some.inj hturn
    have hcalls : (groupTurn w (ConsumerGroup.handleCall w.state (.other request))).called = [] :=
      rfl
    rw [protocol_quiet hp (by simp) (by simp [hcalls]) (by simp [repliesTo])]
    exact iff_of_true rfl trivial

theorem receive_producer {p : Producer.State} {i : Input} {turn : Turn}
    (h : (Client.producer p).receive decode i = some turn) :
    ∃ p', turn.client = .producer p' := by
  cases i with
  | stats json => exact Option.some.inj h ▸ ⟨_, rfl⟩
  | getStats => exact Option.some.inj h ▸ ⟨_, rfl⟩
  | producer m =>
    simp only [Client.receive] at h
    split at h
    · cases h
    · exact Option.some.inj h ▸ ⟨_, rfl⟩
  | reportRaised status message =>
    simp only [Client.receive] at h
    split at h
    · cases h
    · exact Option.some.inj h ▸ ⟨_, rfl⟩
  | group m => cases h
  | groupCall request => cases h

/-- What a message leaves in the fields about statistics. -/
theorem receive_group {w : ConsumerGroup.World} {i : Input} {turn : Turn} {values : List Term}
    (h : (Client.group w).receive decode i = some turn) (hvalues : i.decoded decode = some values) :
    ∃ w', turn.client = .group w' ∧ statsFields w'.state =
      (w.state.clientId, w.state.statsCb,
        (values.getLast?.map fun value => jason (.ok value)).getD w.state.stats) := by
  cases i with
  | stats json =>
    obtain ⟨value, hvalue, rfl⟩ := decoded_stats hvalues
    obtain rfl := Option.some.inj h
    exact ⟨_, rfl, by rw [hvalue]; rfl⟩
  | getStats =>
    obtain rfl := Option.some.inj hvalues
    exact Option.some.inj h ▸ ⟨_, rfl, rfl⟩
  | producer m => cases h
  | reportRaised status message => cases h
  | group m =>
    obtain rfl := Option.some.inj hvalues
    obtain ⟨hother, rfl⟩ := receive_other h
    exact ⟨_, rfl, statsFields_handled hother⟩
  | groupCall request =>
    obtain rfl := Option.some.inj hvalues
    exact Option.some.inj h ▸ ⟨_, rfl, rfl⟩

/-- **One message keeps the record of a group.** -/
theorem Keeps.step {s t : Session} {i : Input} (hk : Keeps config clientId s)
    (hstep : s.step decode i = some t) : Keeps config clientId t := by
  obtain ⟨values, turn, hvalues, hturn, rfl⟩ := step_parts hstep
  intro w hw
  have hclient : turn.client = .group w := hw
  cases hc : s.client with
  | producer p =>
    obtain ⟨p', hp'⟩ := receive_producer (hc ▸ hturn)
    rw [hclient] at hp'
    cases hp'
  | group v =>
    obtain ⟨v', hv', hfields⟩ := receive_group (hc ▸ hturn) hvalues
    rw [hclient] at hv'
    cases hv'
    obtain ⟨hid, hcb, hstats⟩ := hk v hc
    simp only [statsFields, Prod.mk.injEq] at hfields
    refine ⟨hfields.1.trans hid, hfields.2.1.trans hcb, hfields.2.2.trans ?_⟩
    rw [hstats, List.getLast?_append]
    cases values.getLast? <;> rfl

theorem keeps_start {c : Client} (h : Started clientId config c) :
    Keeps config clientId (Session.start c) := by
  rintro w hw
  cases h with
  | producer hinit => cases hw
  | @group topics consumerNew s es hinit =>
    cases hw
    cases consumerNew with
    | error error => cases hinit
    | ok ref =>
      cases hinit
      exact ⟨rfl, rfl, rfl⟩

theorem protocol_start (callback : Option Term) (c : Client) :
    Protocol callback clientId (Session.start c) :=
  ⟨rfl, by cases callback <;> rfl, fun r hr => absurd hr List.not_mem_nil⟩

/-- **When the statistics protocol is kept.** In a run of a client of either kind, from its start,
the protocol is kept at every point exactly when every message is harmless: no message about
statistics to a producer, and to a group none that calls a callback or asks for statistics it has
received. -/
theorem always_protocol_iff {c : Client} (hstart : Started clientId config c) {is : List Input}
    {s : Session} (hrun : run (Session.step decode) (Session.start c) is = some s) :
    Always (Session.step decode) (Protocol (configured config) clientId) (Session.start c) is ↔
      Along (Session.step decode) Harmless (Session.start c) is := by
  refine always_iff_along (I := Keeps config clientId) (fun s i t hk hs => hk.step hs)
    (fun s i t hk hp hs => ?_) (keeps_start hstart) (protocol_start _ c) hrun
  cases hc : s.client with
  | producer p => exact protocol_producer hp hc hs
  | group w => exact protocol_group (hk w hc) hp hc hs

end Runs

/-- A producer that has just started. -/
def sampleProducer : Client :=
  .producer ⟨"client", .ref 0, .undefined, .undefined, Producer.localDiskQueue, [], true⟩

/-- A consumer group with this statistics callback, just started. -/
def sampleGroup (statsCb : Term) : Client :=
  .group (ConsumerGroup.World.start ⟨"client", .ref 0, fun _ => none, ∅, statsCb, .atom "nil"⟩)

/-- A decoder that knows the empty object. -/
def sampleDecode : Term → Except Term Term := fun _ => .ok (.map [])

/-- A producer raises on its first statistics and on `:get_stats`. A group hands its callback
`{:ok, statistics}`, calls `nil.stats_callback` when no callback is configured, and answers with
`{:ok, {:ok, statistics}}`. -/
theorem statistics_broken :
    ¬ Always (Session.step sampleDecode) (Protocol (configured []) "client")
        (Session.start sampleProducer) [.stats (.str "\x7b\x7d")] ∧
      ¬ Always (Session.step sampleDecode) (Protocol (configured []) "client")
        (Session.start sampleProducer) [.getStats] ∧
      ¬ Always (Session.step sampleDecode)
        (Protocol (configured [(.atom "stats_callback", .atom "Callback")]) "client")
        (Session.start (sampleGroup (.atom "Callback"))) [.stats (.str "\x7b\x7d")] ∧
      ¬ Always (Session.step sampleDecode) (Protocol (configured []) "client")
        (Session.start (sampleGroup (.atom "nil"))) [.stats (.str "\x7b\x7d")] ∧
      ¬ Always (Session.step sampleDecode)
        (Protocol (configured [(.atom "stats_callback", .undefined)]) "client")
        (Session.start (sampleGroup .undefined)) [.stats (.str "\x7b\x7d"), .getStats] := by
  refine ⟨fun h => ?_, fun h => ?_, fun h => ?_, fun h => ?_, fun h => ?_⟩
  · exact Bool.false_ne_true (h.last rfl).safe.symm
  · exact Bool.false_ne_true (h.last rfl).safe.symm
  · have hcalled := (h.last rfl).called
    revert hcalled
    decide
  · have hcalled := (h.last rfl).called
    revert hcalled
    decide
  · have hreply := (h.last rfl).replies
      (some [.ok, .tuple [.ok, .map []]], .map []) (by decide)
    revert hreply
    decide

/-- A group that is asked for its statistics before the first ones. -/
theorem always_protocol_iff_sample :
    Always (Session.step sampleDecode)
        (Protocol (configured [(.atom "stats_callback", .undefined)]) "client")
        (Session.start (sampleGroup .undefined)) [.getStats, .stats (.str "\x7b\x7d")] ↔
      Along (Session.step sampleDecode) Harmless (Session.start (sampleGroup .undefined))
        [.getStats, .stats (.str "\x7b\x7d")] :=
  always_protocol_iff (@Started.group "client" [(.atom "stats_callback", .undefined)] []
    (.ok (.ref 0)) _ _ rfl) rfl

end Exrdkafka.Statistics
