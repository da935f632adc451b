import Exrdkafka.Consumer.Delivery

/-!
# At least once

Whatever the sessions of a partition come to, no record between the first session and the committed
offset is skipped: it has been acknowledged by the callback in some session, or it was diverted to
the main queue before the partition queue was taken off it (`atLeastOnce_of_run`).

The partition refines the readers of `OffsetLog`: every step of `Delivery` is a step of the log that
is read, or none (`Inv.refines`). `Session.Sound` is the invariant behind it: the records fetched
are the diverted ones, those the process has polled, and those still on the queue, in the order of
the log.
-/

namespace Exrdkafka.Consumer

open Nif OffsetLog Machine Trace

/-! ## What a step of the process adds to its history -/

/-- The process goes from `w` to `w'` without a poll and without storing an offset. -/
structure World.GoesOn (w w' : World) : Prop where
  polled : polledIn w'.trace = polledIn w.trace
  stored : storedIn w'.trace = storedIn w.trace
  acked : ackedIn w.trace ⊆ ackedIn w'.trace

theorem goesOn_of_trace_eq {w w' : World} (h : w'.trace = w.trace) : w.GoesOn w' := by
  constructor <;> rw [h]
  exact List.Subset.refl _

theorem goesOn_of_call {w w' : World} {c : Call} (h : w'.trace = w.trace ++ [c])
    (hpolled : c.polled = []) (hstored : c.stored = []) : w.GoesOn w' := by
  constructor
  · rw [h, polledIn_concat, hpolled, List.append_nil]
  · rw [h, storedIn_concat, hstored, List.append_nil]
  · rw [h, ackedIn_concat]
    exact List.subset_append_left _ _

theorem handleStop_goesOn (w : World) (sender tag : ℕ) : w.GoesOn (handleStop w sender tag) :=
  goesOn_of_call (c := .stopped sender tag) rfl rfl rfl

theorem interrupted_goesOn (w : World) (m : Mail) : w.GoesOn (interrupted w m) := by
  cases m with
  | stop sender tag => exact handleStop_goesOn w sender tag
  | _ => exact goesOn_of_trace_eq rfl

theorem receive_goesOn (w : World) (m : Mail) : w.GoesOn (receive w m) := by
  cases m with
  | self m => cases m <;> exact goesOn_of_trace_eq rfl
  | stop sender tag => exact handleStop_goesOn w sender tag
  | triple t => exact goesOn_of_trace_eq rfl
  | other t => exact goesOn_of_trace_eq rfl

theorem internal_goesOn {w w' : World} (h : internal w = some w') : w.GoesOn w' := by
  unfold internal at h
  split at h
  case h_1 =>
    split at h
    · cases h
    · rename_i m rest hm
      have hrec := receive_goesOn { w with mailbox := rest } m
      exact Option.some.inj h ▸ ⟨hrec.polled, hrec.stored, hrec.acked⟩
  case h_2 => exact Option.some.inj h ▸ goesOn_of_trace_eq rfl
  case h_3 =>
    split at h
    · exact Option.some.inj h ▸ goesOn_of_trace_eq rfl
    · rename_i m rest hm
      have hint := interrupted_goesOn { w with mailbox := rest } m
      exact Option.some.inj h ▸ ⟨hint.polled, hint.stored, hint.acked⟩
  case h_4 =>
    split at h
    · exact Option.some.inj h ▸ goesOn_of_trace_eq rfl
    · rename_i m rest hm
      have hint := interrupted_goesOn { w with mailbox := rest } m
      exact Option.some.inj h ▸ ⟨hint.polled, hint.stored, hint.acked⟩
  case h_5 ms next hc => exact Option.some.inj h ▸ goesOn_of_call (c := .sleep ms) rfl rfl rfl
  case h_6 => cases h

theorem answered_goesOn {w w' : World} {a : Answer} (h : answered w a = some w') :
    w.GoesOn w' := by
  unfold answered at h
  split at h
  case h_1 hd tl backoff cbState hc =>
    cases a with
    | _ => exact Option.some.inj h ▸ goesOn_of_call (c := .handleMessage [hd] cbState _) rfl rfl rfl
  case h_2 msgs last backoff cbState hc =>
    cases a with
    | _ => exact Option.some.inj h ▸ goesOn_of_call (c := .handleMessage msgs cbState _) rfl rfl rfl
  case h_3 => cases h

theorem step_goesOn {w w' : World} {l : Label} (h : step w l = some w') (hl : l.local = true) :
    w.GoesOn w' := by
  cases l with
  | arrive m =>
    simp only [step] at h
    split_ifs at h
    exact Option.some.inj h ▸ goesOn_of_trace_eq rfl
  | expire i =>
    obtain ⟨m, -, rfl⟩ := Option.map_eq_some_iff.1 h
    exact goesOn_of_trace_eq rfl
  | next => exact internal_goesOn h
  | polled queue => cases hl
  | answered a => exact answered_goesOn h
  | stored ok => cases hl

/-- The messages that a poll of the queue returns to this process. -/
def World.polls (w : World) (queue : List FetchEvent) : List Message :=
  (enifConsumerQueuePoll queue w.state.pollBatchSize).elim [] Polled.messages

theorem trace_of_polled {w w' : World} {queue : List FetchEvent}
    (h : step w (.polled queue) = some w') : w'.trace = w.trace ++ [.poll (w.polls queue)] := by
  simp only [step] at h
  split at h
  · obtain rfl := Option.some.inj h
    unfold pollEvents World.polls
    split
    · next hpoll => rw [hpoll]; rfl
    · next p hpoll =>
      rw [hpoll]
      dsimp only
      split
      · split <;> rfl
      · rfl
  · cases h

theorem trace_of_stored {w w' : World} {ok : Bool} {t : List UInt8} {p o : ℤ}
    (hstore : w.ctl.store = some (t, p, o)) (h : step w (.stored ok) = some w') :
    w'.trace = w.trace ++ [.offsetStore t p o] := by
  simp only [step, stored] at h
  split at h
  · next hc =>
    rw [hc] at hstore
    cases hstore
    exact Option.some.inj h ▸ rfl
  · next hc =>
    rw [hc] at hstore
    cases hstore
    obtain rfl := Option.some.inj h
    cases ok <;> rfl
  · cases h

/-! ## Sessions -/

/-- What holds of a session. -/
structure Session.Sound (topic : List UInt8) (partition : ℤ) (log : Log RdMessage.offset)
    (s : Session) : Prop where
  within : s.fetched ≤ (log.since s.position).length
  /-- The records fetched were diverted, polled, or are on the queue. -/
  fetched : ∃ taken, (log.since s.position).take s.fetched =
    s.diverted ++ (taken ++ s.queue.flatten) ∧ polledIn s.trace = taken.map makeMessage
  events : ∀ event ∈ s.queue, Belongs topic partition event
  /-- The process gets the queue when it is off the main queue. -/
  attached : s.detached = false → s.queue = [] ∧ s.world = none
  process : ∀ w ∈ s.world, Inv w
  stored : ∀ o ∈ s.stored, o ∈ storedIn s.trace

/-- The session `s'` goes on from `s`. -/
structure Session.GoesOn (s s' : Session) : Prop where
  position : s'.position = s.position
  acked : ackedIn s.trace ⊆ ackedIn s'.trace
  diverted : s.diverted ⊆ s'.diverted
  /-- The offset stored does not go back. -/
  stored : ∀ o ∈ s.stored, ∃ o' ∈ s'.stored, o ≤ o'

namespace Session

variable {topic : List UInt8} {partition : ℤ} {log : Log RdMessage.offset} {s s' : Session}

theorem Sound.start (topic : List UInt8) (partition : ℤ) (log : Log RdMessage.offset)
    (position : ℤ) : (Session.start position).Sound topic partition log where
  within := Nat.zero_le _
  fetched := ⟨[], rfl, rfl⟩
  events := nofun
  attached _ := ⟨rfl, rfl⟩
  process := nofun
  stored := nofun

/-- The log grows at its end. -/
theorem Sound.append (h : s.Sound topic partition log) {msg : RdMessage}
    (hmsg : ∀ r ∈ log.records, r.offset < msg.offset) :
    s.Sound topic partition (log.append msg hmsg) := by
  obtain ⟨more, hmore⟩ := log.since_prefix_append s.position msg hmsg
  refine { h with within := ?_, fetched := ?_ }
  · rw [← hmore, List.length_append]
    exact Nat.le_add_right_of_le h.within
  · rw [← hmore, List.take_append_of_le_length h.within]
    exact h.fetched

theorem Sound.detach (h : s.Sound topic partition log) :
    { s with detached := true }.Sound topic partition log := { h with attached := nofun }

/-- A fetched record comes behind those fetched before. -/
theorem take_succ_of_getElem? {l before : List RdMessage} {n : ℕ} {msg : RdMessage}
    (hmsg : l[n]? = some msg) (hbefore : l.take n = before) : l.take (n + 1) = before ++ [msg] := by
  obtain ⟨hlt, hget⟩ := List.getElem?_eq_some_iff.1 hmsg
  rw [List.take_succ_eq_append_getElem hlt, hbefore, hget]

/-- The record comes on the partition queue. -/
theorem Sound.arrive (h : s.Sound topic partition log) {msg : RdMessage}
    (hmsg : (log.since s.position)[s.fetched]? = some msg)
    (hbelongs : Belongs topic partition [msg]) (hdetached : s.detached = true) :
    { s with fetched := s.fetched + 1, queue := s.queue ++ [[msg]] }.Sound topic partition log := by
  obtain ⟨taken, hsplit, hpolled⟩ := h.fetched
  refine { h with
    within := (List.getElem?_eq_some_iff.1 hmsg).1
    fetched := ⟨taken, ?_, hpolled⟩
    events := fun event he => ?_
    attached := fun hno => absurd hno (by simp [hdetached]) }
  · rw [take_succ_of_getElem? hmsg hsplit, List.flatten_append]
    simp
  · rcases List.mem_append.1 he with he | he
    · exact h.events event he
    · exact List.mem_singleton.1 he ▸ hbelongs

/-- The record comes on the main queue, before anything is on the partition queue. -/
theorem Sound.divert (h : s.Sound topic partition log) {msg : RdMessage}
    (hmsg : (log.since s.position)[s.fetched]? = some msg) (hdetached : s.detached = false) :
    { s with fetched := s.fetched + 1, diverted := s.diverted ++ [msg] }.Sound topic partition
      log := by
  obtain ⟨taken, hsplit, hpolled⟩ := h.fetched
  obtain ⟨hqueue, hworld⟩ := h.attached hdetached
  have hnone : taken = [] := by
    rw [trace, hworld] at hpolled
    exact List.map_eq_nil_iff.1 hpolled.symm
  refine { h with
    within := (List.getElem?_eq_some_iff.1 hmsg).1
    fetched := ⟨taken, ?_, hpolled⟩ }
  rw [take_succ_of_getElem? hmsg hsplit, hnone, hqueue]
  simp

theorem Sound.fetch (h : s.Sound topic partition log)
    (hlog : ∀ r ∈ log.records, Belongs topic partition [r]) (hs : s.fetch log = some s') :
    s'.Sound topic partition log ∧ s.GoesOn s' := by
  obtain ⟨msg, hmsg, rfl⟩ := Option.map_eq_some_iff.1 hs
  have hin : msg ∈ log.records := (Log.mem_since.1 (List.mem_of_getElem? hmsg)).1
  have hstored : ∀ o ∈ s.stored, ∃ o' ∈ s.stored, o ≤ o' := fun o ho => ⟨o, ho, le_rfl⟩
  split
  · next hdetached =>
    exact ⟨h.arrive hmsg (hlog msg hin) hdetached, rfl, List.Subset.refl _, List.Subset.refl _,
      hstored⟩
  · next hdetached =>
    exact ⟨h.divert hmsg (by simpa using hdetached), rfl, List.Subset.refl _,
      List.subset_append_left _ _, hstored⟩

/-- An event of another type brings no record. -/
theorem Sound.otherEvent (h : s.Sound topic partition log) (hdetached : s.detached = true) :
    { s with queue := s.queue ++ [[]] }.Sound topic partition log := by
  obtain ⟨taken, hsplit, hpolled⟩ := h.fetched
  refine { h with
    fetched := ⟨taken, by simpa using hsplit, hpolled⟩
    events := fun event he => ?_
    attached := fun hno => absurd hno (by simp [hdetached]) }
  rcases List.mem_append.1 he with he | he
  · exact h.events event he
  · obtain rfl := List.mem_singleton.1 he
    exact ⟨Nat.zero_le _, nofun⟩

/-- The process starts without a history. -/
theorem Sound.startProcess (h : s.Sound topic partition log) (hdetached : s.detached = true)
    (hworld : s.world = none) {st : State} (hm : st.messages = []) (hl : st.lastOffset = -1) :
    { s with world := some (.start st) }.Sound topic partition log := by
  have htrace : s.trace = [] := by rw [trace, hworld]; rfl
  have hfetched := h.fetched
  have hstored := h.stored
  rw [htrace] at hfetched hstored
  refine { h with fetched := hfetched, stored := hstored, attached := ?_, process := ?_ }
  · exact fun hno => absurd hno (by simp [hdetached])
  · rintro _ ⟨⟩
    exact Inv.start hm hl

/-- A step of the process that neither polls nor stores. -/
theorem Sound.own (h : s.Sound topic partition log) {l : Label} (hs : s.own l = some s') :
    s'.Sound topic partition log ∧ s.GoesOn s' := by
  unfold Session.own at hs
  split_ifs at hs with hl
  obtain ⟨w, hw, hs⟩ := Option.bind_eq_some_iff.1 hs
  obtain ⟨w', hstep, rfl⟩ := Option.map_eq_some_iff.1 hs
  have hgoes := step_goesOn hstep hl
  have htrace : s.trace = w.trace := by rw [trace, hw]; rfl
  have hfetched := h.fetched
  have hstored := h.stored
  rw [htrace, ← hgoes.polled] at hfetched
  rw [htrace, ← hgoes.stored] at hstored
  refine ⟨{ h with fetched := hfetched, stored := hstored, attached := ?_, process := ?_ },
    rfl, ?_, List.Subset.refl _, fun o ho => ⟨o, ho, le_rfl⟩⟩
  · intro hno
    rw [(h.attached hno).2] at hw
    cases hw
  · rintro _ ⟨⟩
    exact (h.process w hw).step hstep
  · rw [htrace]
    exact hgoes.acked

/-- The process takes the front of the queue. -/
theorem Sound.poll (h : s.Sound topic partition log) (hs : s.poll = some s') :
    s'.Sound topic partition log ∧ s.GoesOn s' := by
  obtain ⟨w, hw, hs⟩ := Option.bind_eq_some_iff.1 hs
  obtain ⟨w', hstep, rfl⟩ := Option.map_eq_some_iff.1 hs
  obtain ⟨before, hsplit, hpolled⟩ := h.fetched
  have htrace : s.trace = w.trace := by rw [trace, hw]; rfl
  have htrace' := trace_of_polled hstep
  obtain ⟨taken, hqueue, hpolls⟩ : ∃ taken, s.queue = taken ++
      (enifConsumerQueuePoll s.queue w.state.pollBatchSize).elim s.queue Polled.rest ∧
      w.polls s.queue = taken.flatten.map makeMessage := by
    unfold World.polls
    cases hpoll : enifConsumerQueuePoll s.queue w.state.pollBatchSize with
    | none => exact ⟨[], rfl, rfl⟩
    | some p =>
      obtain ⟨taken, hqueue, hmessages, -⟩ := (pollSpec h.events hpoll).taken
      exact ⟨taken, hqueue, hmessages⟩
  refine ⟨⟨h.within, ⟨before ++ taken.flatten, ?_, ?_⟩, fun event he => h.events event ?_, ?_, ?_,
    ?_⟩, rfl, ?_, List.Subset.refl _, fun o ho => ⟨o, ho, le_rfl⟩⟩
  · rw [hsplit]
    conv_lhs => rw [hqueue]
    simp
  · rw [htrace] at hpolled
    simp [trace, htrace', hpolled, Call.polled, hpolls]
  · rw [hqueue]
    exact List.mem_append_right _ he
  · intro hno
    rw [(h.attached hno).2] at hw
    cases hw
  · rintro _ ⟨⟩
    exact (h.process w hw).step hstep
  · intro o ho
    have hold := h.stored o ho
    rw [htrace] at hold
    simpa [trace, htrace', Call.stored] using hold
  · rw [htrace]
    simp [trace, htrace', Call.acked]

/-- The records polled come in the order of the log. -/
theorem Sound.increasing (h : s.Sound topic partition log) : Increasing s.trace := by
  obtain ⟨taken, hsplit, hpolled⟩ := h.fetched
  have hsorted := (log.sorted_since s.position).sublist (List.take_sublist s.fetched _)
  rw [hsplit] at hsorted
  have htaken := (List.pairwise_append.1 (List.pairwise_append.1 hsorted).2.1).1
  rw [Increasing, hpolled, List.pairwise_map]
  exact htaken

/-- The history of the process is accounted for. -/
theorem Sound.accounted (h : s.Sound topic partition log) : ∃ rest, Accounted s.trace rest := by
  cases hw : s.world with
  | none => exact ⟨[], by rw [trace, hw]; exact ⟨rfl, List.nil_sublist _⟩⟩
  | some w =>
    rw [trace, hw]
    exact (h.process w hw).progress.accounted

/-- The process calls the offset store, which keeps the offset or not. -/
theorem Sound.afterStore (h : s.Sound topic partition log) {w w' : World} (hw : s.world = some w)
    {t : List UInt8} {p o : ℤ} (hctl : w.ctl.store = some (t, p, o)) {ok : Bool}
    (hstep : step w (.stored ok) = some w') {stored : Option ℤ}
    (hstored : stored = some o ∨ stored = s.stored) :
    { s with stored := stored, world := some w' }.Sound topic partition log ∧
      s.GoesOn { s with stored := stored, world := some w' } := by
  have htrace : s.trace = w.trace := by rw [trace, hw]; rfl
  have htrace' := trace_of_stored hctl hstep
  have hnew : storedIn w'.trace = storedIn s.trace ++ [o] := by
    rw [htrace', htrace, storedIn_concat]
    rfl
  have hfetched := h.fetched
  rw [htrace] at hfetched
  have hsound : { s with stored := stored, world := some w' }.Sound topic partition log := by
    refine { h with fetched := ?_, attached := ?_, process := ?_, stored := ?_ }
    · simpa [trace, htrace', Call.polled] using hfetched
    · intro hno
      rw [(h.attached hno).2] at hw
      cases hw
    · rintro _ ⟨⟩
      exact (h.process w hw).step hstep
    · intro x hx
      show x ∈ storedIn w'.trace
      rw [hnew, List.mem_append, List.mem_singleton]
      rcases hstored with rfl | rfl
      · exact .inr (Option.some.inj hx).symm
      · exact .inl (h.stored x hx)
  refine ⟨hsound, rfl, ?_, List.Subset.refl _, fun x hx => ?_⟩
  · rw [htrace]
    simp [trace, htrace', Call.acked]
  · rcases hstored with rfl | rfl
    · -- the offsets stored increase
      obtain ⟨rest, hacc⟩ := hsound.accounted
      have hinc := hacc.stored_increasing hsound.increasing
      rw [show Session.trace _ = w'.trace from rfl, hnew, List.pairwise_append] at hinc
      exact ⟨o, rfl, (hinc.2.2 x (h.stored x hx) o (List.mem_singleton_self o)).le⟩
    · exact ⟨x, hx, le_rfl⟩

theorem Sound.store (h : s.Sound topic partition log) {name : List UInt8} {number err : ℤ}
    (hs : s.store name number err = some s') :
    s'.Sound topic partition log ∧ s.GoesOn s' := by
  obtain ⟨w, hw, hs⟩ := Option.bind_eq_some_iff.1 hs
  obtain ⟨⟨t, p, o⟩, hctl, hs⟩ := Option.bind_eq_some_iff.1 hs
  obtain ⟨w', hstep, rfl⟩ := Option.map_eq_some_iff.1 hs
  refine h.afterStore hw hctl hstep ?_
  cases hcall : (enifConsumerOffsetStore w.state.clientRef (.binary t) (.int p) (.int o) err).1 with
  | none => exact .inr rfl
  | some call =>
    obtain rfl := enifConsumerOffsetStore_call hcall
    rw [kept]
    split
    · exact .inl rfl
    · exact .inr rfl

/-- **What a stored offset covers.** The offset stored is that of a record of the session, and every
record up to it was acknowledged or diverted. -/
theorem Sound.covered (h : s.Sound topic partition log) {o : ℤ} (ho : o ∈ s.stored) :
    (∃ r ∈ log.since s.position, r.offset = o) ∧
      ∀ r ∈ log.since s.position, r.offset ≤ o →
        makeMessage r ∈ ackedIn s.trace ∨ r ∈ s.diverted := by
  obtain ⟨taken, hsplit, hpolled⟩ := h.fetched
  obtain ⟨rest, hacc⟩ := h.accounted
  -- the message with the offset has been acknowledged, so it was polled
  obtain ⟨m, hm, rfl⟩ := List.mem_map.1 (hacc.stored.subset (h.stored o ho))
  have hmpolled : m ∈ polledIn s.trace := by
    rw [hacc.polled]
    exact List.mem_append_left _ hm
  rw [hpolled] at hmpolled
  obtain ⟨last, hlast, rfl⟩ := List.mem_map.1 hmpolled
  have hlog : log.since s.position = (s.diverted ++ taken) ++
      (s.queue.flatten ++ (log.since s.position).drop s.fetched) := by
    conv_lhs => rw [← List.take_append_drop s.fetched (log.since s.position), hsplit]
    simp
  have hlastlog : last ∈ s.diverted ++ taken := List.mem_append_right _ hlast
  refine ⟨⟨last, ?_, rfl⟩, fun r hr hle => ?_⟩
  · rw [hlog]
    exact List.mem_append_left _ hlastlog
  · have hsorted := log.sorted_since s.position
    rw [hlog] at hsorted hr
    rcases List.mem_append.1 (Log.mem_of_le hsorted hr hlastlog hle) with hr | hr
    · exact .inr hr
    · have hrpolled : makeMessage r ∈ polledIn s.trace := by
        rw [hpolled]
        exact List.mem_map_of_mem hr
      have hinc := h.increasing
      rw [Increasing, hacc.polled] at hinc
      rw [hacc.polled] at hrpolled
      exact .inl (Log.mem_of_le hinc hrpolled hm hle)

end Session

/-! ## The partition -/

namespace Delivery

variable {topic : List UInt8} {partition : ℤ} {d d' : Delivery}

/-- The partition as a log that is read. A record is finished when its message has been
acknowledged, or when it was diverted. -/
def reading (d : Delivery) : Reading RdMessage.offset where
  log := d.log
  committed := d.committed
  finished := {r | makeMessage r ∈ d.allAcked ∨ r ∈ d.allDiverted}

/-- What holds of the partition. -/
structure Inv (topic : List UInt8) (partition : ℤ) (d : Delivery) : Prop where
  belongs : ∀ r ∈ d.log.records, Belongs topic partition [r]
  sound : ∀ s ∈ d.session, s.Sound topic partition d.log
  began : ∀ s ∈ d.session, ∀ c ∈ d.committed, s.position ≤ c.position
  forward : ∀ s ∈ d.session, ∀ c ∈ d.committed,
    c.position ≤ s.position ∨ ∃ o ∈ s.stored, c.position ≤ o + 1

theorem Inv.start (topic : List UInt8) (partition : ℤ) : Inv topic partition .start :=
  ⟨nofun, nofun, nofun, nofun⟩

/-- The session goes on: more records may be finished. -/
theorem Inv.withSession (h : Inv topic partition d) {f : Session → Option Session}
    (hf : ∀ s s', s ∈ d.session → f s = some s' → s'.Sound topic partition d.log ∧ s.GoesOn s')
    (hd : d.withSession f = some d') :
    Inv topic partition d' ∧ Relation.ReflTransGen OffsetLog.Step d.reading d'.reading := by
  obtain ⟨s, hs, hd⟩ := Option.bind_eq_some_iff.1 hd
  obtain ⟨s', hs', rfl⟩ := Option.map_eq_some_iff.1 hd
  obtain ⟨hsound, hgoes⟩ := hf s s' hs hs'
  refine ⟨{ h with sound := ?_, began := ?_, forward := ?_ }, .single (.finish ?_)⟩
  · rintro _ ⟨⟩
    exact hsound
  · rintro _ ⟨⟩ c hc
    rw [hgoes.position]
    exact h.began s hs c hc
  · rintro _ ⟨⟩ c hc
    rw [hgoes.position]
    refine (h.forward s hs c hc).imp_right fun ⟨o, ho, hle⟩ => ?_
    obtain ⟨o', ho', hle'⟩ := hgoes.stored o ho
    exact ⟨o', ho', by omega⟩
  · have hacked : d.allAcked ⊆ { d with session := some s' }.allAcked := by
      simp only [allAcked, Option.mem_def.1 hs, Option.elim]
      exact List.append_subset.2 ⟨List.subset_append_left _ _,
        List.subset_append_of_subset_right _ hgoes.acked⟩
    have hdiverted : d.allDiverted ⊆ { d with session := some s' }.allDiverted := by
      simp only [allDiverted, Option.mem_def.1 hs, Option.elim]
      exact List.append_subset.2 ⟨List.subset_append_left _ _,
        List.subset_append_of_subset_right _ hgoes.diverted⟩
    exact fun r hr => hr.imp (fun hr => hacked hr) fun hr => hdiverted hr

/-- The broker appends a record. -/
theorem Inv.produce (h : Inv topic partition d) {msg : RdMessage}
    (hmsg : Belongs topic partition [msg]) (hlast : ∀ r ∈ d.log.records, r.offset < msg.offset) :
    Inv topic partition { d with log := d.log.append msg hlast } where
  belongs r hr := by
    rcases List.mem_append.1 hr with hr | hr
    · exact h.belongs r hr
    · exact List.mem_singleton.1 hr ▸ hmsg
  sound s hs := (h.sound s hs).append hlast
  began := h.began
  forward := h.forward

/-- A session begins where the commits are. -/
theorem Inv.assign (h : Inv topic partition d) (reset : ℤ) :
    Inv topic partition
      { d with session := some (.start (d.committed.elim reset Commit.position)) } where
  belongs := h.belongs
  sound := by
    rintro _ ⟨⟩
    exact Session.Sound.start topic partition d.log _
  began := by
    rintro _ ⟨⟩ c hc
    rw [Option.mem_def.1 hc]
    rfl
  forward := by
    rintro _ ⟨⟩ c hc
    rw [Option.mem_def.1 hc]
    exact .inl le_rfl

/-- A commit covers finished records only, and goes forward. -/
theorem Inv.commit (h : Inv topic partition d) {s : Session} (hs : s ∈ d.session)
    (hd : d.commit s = some d') :
    Inv topic partition d' ∧ Relation.ReflTransGen OffsetLog.Step d.reading d'.reading := by
  obtain ⟨o, ho, rfl⟩ := Option.map_eq_some_iff.1 hd
  obtain ⟨⟨r, hr, rfl⟩, hcovered⟩ := (h.sound s hs).covered ho
  have hsince : s.position ≤ r.offset := (Log.mem_since.1 hr).2
  have hforward : ∀ c ∈ d.committed, c.position ≤ r.offset + 1 := by
    intro c hc
    rcases h.forward s hs c hc with hle | ⟨o, ho', hle⟩
    · omega
    · obtain rfl := Option.some.inj ((Option.mem_def.1 ho').symm.trans ho)
      exact hle
  have hfinished : ∀ r' ∈ d.log.since s.position, r'.offset ≤ r.offset →
      r' ∈ d.reading.finished := by
    intro r' hr' hle
    refine (hcovered r' hr' hle).imp (fun hacked => ?_) fun hdiverted => ?_
    · rw [allAcked, Option.mem_def.1 hs]
      exact List.mem_append_right _ hacked
    · rw [allDiverted, Option.mem_def.1 hs]
      exact List.mem_append_right _ hdiverted
  refine ⟨{ h with began := ?_, forward := ?_ },
    .single (.commit (h.began s hs) hforward hr hfinished)⟩
  · rintro s' hs' _ ⟨⟩
    obtain rfl := Option.some.inj (hs.symm.trans hs')
    exact (Int.lt_add_one_of_le hsince).le
  · rintro s' hs' _ ⟨⟩
    obtain rfl := Option.some.inj (hs.symm.trans hs')
    exact .inr ⟨r.offset, ho, le_rfl⟩

/-- The end of a session leaves its account. -/
theorem Inv.finish (h : Inv topic partition d) :
    Inv topic partition
        { d with session := none, acked := d.allAcked, diverted := d.allDiverted } ∧
      { d with session := none, acked := d.allAcked, diverted := d.allDiverted }.reading =
        d.reading := by
  refine ⟨{ h with sound := nofun, began := nofun, forward := nofun }, ?_⟩
  simp [reading, allAcked, allDiverted]

/-- **The partition refines the readers of its log.** -/
theorem Inv.refines (e : DeliveryEvent) (h : Inv topic partition d)
    (hd : step topic partition d e = some d') :
    Inv topic partition d' ∧ Relation.ReflTransGen OffsetLog.Step d.reading d'.reading := by
  cases e with
  | produce msg =>
    simp only [step] at hd
    split at hd
    · next hmsg =>
      exact Option.some.inj hd ▸ ⟨h.produce hmsg.1 hmsg.2, .single (.append hmsg.2)⟩
    · cases hd
  | assign reset =>
    simp only [step] at hd
    split at hd
    · next hnone =>
      obtain rfl := Option.some.inj hd
      refine ⟨h.assign reset, .single (.finish fun r hr => ?_)⟩
      simpa [reading, allAcked, allDiverted, hnone, Session.start, Session.trace, ackedIn] using hr
    · cases hd
  | detach =>
    refine h.withSession (fun s s' hs hs' => ?_) hd
    obtain rfl := Option.some.inj hs'
    exact ⟨(h.sound s hs).detach, rfl, List.Subset.refl _, List.Subset.refl _,
      fun o ho => ⟨o, ho, le_rfl⟩⟩
  | fetch => exact h.withSession (fun s s' hs hs' => (h.sound s hs).fetch h.belongs hs') hd
  | otherEvent =>
    refine h.withSession (fun s s' hs hs' => ?_) hd
    split_ifs at hs' with hdetached
    obtain rfl := Option.some.inj hs'
    exact ⟨(h.sound s hs).otherEvent hdetached, rfl, List.Subset.refl _, List.Subset.refl _,
      fun o ho => ⟨o, ho, le_rfl⟩⟩
  | start clientRef queueRef topicSettings answer =>
    refine h.withSession (fun s s' hs hs' => ?_) hd
    split_ifs at hs' with hready
    split at hs'
    · next st hinit =>
      obtain rfl := Option.some.inj hs'
      have hworld : s.world = none := Option.isNone_iff_eq_none.1 hready.2
      obtain ⟨hm, hl⟩ := init_ok hinit
      refine ⟨(h.sound s hs).startProcess hready.1 hworld hm hl, rfl, ?_, List.Subset.refl _,
        fun o ho => ⟨o, ho, le_rfl⟩⟩
      rw [Session.trace, hworld]
      exact List.nil_subset _
    · cases hs'
    · cases hs'
  | own l => exact h.withSession (fun s s' hs hs' => (h.sound s hs).own hs') hd
  | poll => exact h.withSession (fun s s' hs hs' => (h.sound s hs).poll hs') hd
  | store err => exact h.withSession (fun s s' hs hs' => (h.sound s hs).store hs') hd
  | commit =>
    obtain ⟨s, hs, hd⟩ := Option.bind_eq_some_iff.1 hd
    exact h.commit hs hd
  | finish =>
    obtain ⟨s, hs, rfl⟩ := Option.map_eq_some_iff.1 hd
    obtain ⟨hinv, hreading⟩ := h.finish
    exact ⟨hinv, by rw [hreading]⟩

/-- What the group gets from a partition. -/
structure AtLeastOnce (d : Delivery) : Prop where
  /-- The committed offset passes no record by. -/
  covered : ∀ c ∈ d.committed, ∀ r ∈ d.log.records, c.base ≤ r.offset → r.offset < c.position →
    makeMessage r ∈ d.allAcked ∨ r ∈ d.allDiverted
  /-- A session goes through the log from its position on, in order and without a gap. -/
  inOrder : ∀ s ∈ d.session, ∃ taken later,
    d.log.since s.position = s.diverted ++ (taken ++ later) ∧
      polledIn s.trace = taken.map makeMessage

/-- **At least once, over all sessions.** Take any run of the partition, and any run that goes on
from there. Every record between the first session that committed and the committed offset has been
acknowledged in some session or was diverted, and the committed offset has not gone back. -/
theorem atLeastOnce_of_run {es fs : List DeliveryEvent}
    (hrun : run (step topic partition) .start es = some d)
    (hrun' : run (step topic partition) d fs = some d') :
    d'.AtLeastOnce ∧ Forward d.reading d'.reading := by
  have hstart := Inv.start topic partition
  obtain ⟨hinv, hstar⟩ := run_refines reading (fun _ e _ h => h.refines e) hstart hrun
  obtain ⟨hinv', hstar'⟩ := run_refines reading (fun _ e _ h => h.refines e) hinv hrun'
  have hcovered : Covered (reading .start) := ⟨nofun, nofun⟩
  obtain ⟨hend, hforward⟩ := (hcovered.star hstar).1.star hstar'
  refine ⟨⟨hend.finished, fun s hs => ?_⟩, hforward⟩
  obtain ⟨taken, hsplit, hpolled⟩ := (hinv'.sound s hs).fetched
  refine ⟨taken, s.queue.flatten ++ (d'.log.since s.position).drop s.fetched, ?_, hpolled⟩
  conv_lhs => rw [← List.take_append_drop s.fetched (d'.log.since s.position), hsplit]
  simp

/-- A record of the topic `t`. -/
def recordAt (offset : ℤ) : RdMessage := ⟨[116], 0, offset, none, none, none, 0, .createTime⟩

/-- A session that acknowledges one record and commits it, and a session that gets the next one
before its queue is off the main queue. -/
theorem atLeastOnce_of_two_sessions : ∃ d d' : Delivery,
    d.committed = some ⟨5, 6⟩ ∧ d'.session.map Session.position = some 6 ∧
      d'.allDiverted = [recordAt 6] ∧ d'.AtLeastOnce ∧ Forward d.reading d'.reading :=
  ⟨_, _, rfl, rfl, rfl, @atLeastOnce_of_run [116] 0 _ _
    [.produce (recordAt 5), .assign 5, .detach, .fetch,
      .start (.ref 0) (.ref 1) (some []) (.ok .nil), .own (.expire 0), .own .next, .poll,
      .own (.expire 0), .own .next, .own .next, .own (.answered (.ok .nil)), .store 0, .commit]
    [.finish, .produce (recordAt 6), .assign 0, .fetch] rfl rfl⟩

end Delivery

end Exrdkafka.Consumer
