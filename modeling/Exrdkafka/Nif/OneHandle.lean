import Exrdkafka.Foundations.Directory
import Exrdkafka.Foundations.Machine
import Exrdkafka.Nif.TopicManager

/-!
# One topic handle per name

`AddTopic` looks a name up and creates its handle under a lock. `GetOrCreateTopic` looks the name up
without the lock, calls `AddTopic` when it is not there, and starts again when another thread has
been faster. Any number of calls run at the same time; the unlocked lookup and the critical section
of `AddTopic` are one step each. The destructor runs when no call is left, and no call is made after
it.

* `OneHandle` is what the manager is for: a name has one handle, which is created once, is what
  every call for the name returns, and is destroyed once.
* `oneHandle_of_run`: it holds in every interleaving, whenever `rd_kafka_topic_new` fails.
* `getOrCreateTopic_eq_run`: a call that no other call interrupts is the function
  `getOrCreateTopic`.
-/

namespace Exrdkafka.Nif

open Machine

/-! ## Concurrent calls -/

/-- Where a call stands. -/
inductive TopicPlace where
  /-- `AddTopic`, before its critical section -/
  | add (name : List UInt8)
  /-- what `AddTopic` has returned -/
  | added (name : List UInt8) (topic : Option TopicHandle) (alreadyExist : Bool)
  /-- `GetOrCreateTopic`, before its lookup, after so many recursive calls -/
  | lookup (name : List UInt8) (depth : ℕ)
  /-- `GetOrCreateTopic`, before the critical section of `AddTopic` -/
  | create (name : List UInt8) (depth : ℕ)
  /-- what `GetOrCreateTopic` has returned -/
  | got (name : List UInt8) (depth : ℕ) (topic : Option TopicHandle)

namespace TopicPlace

/-- The call has returned. -/
def returned : TopicPlace → Bool
  | .added _ _ _ | .got _ _ _ => true
  | _ => false

/-- The number of recursive calls. -/
def depth : TopicPlace → ℕ
  | .add _ | .added _ _ _ => 0
  | .lookup _ depth | .create _ depth | .got _ depth _ => depth

/-- Where a call of `AddTopic` returns to. -/
def afterAdd (name : List UInt8) (r : TopicManager.Added) : TopicPlace :=
  .added name r.topic r.alreadyExist

/-- Where `GetOrCreateTopic` goes after its lookup. -/
def afterLookup (name : List UInt8) (depth : ℕ) : Option TopicHandle → TopicPlace
  | some topic => .got name depth (some topic)
  | none => .create name depth

/-- Where `GetOrCreateTopic` goes after its call of `AddTopic`. -/
def afterCreate (name : List UInt8) (depth : ℕ) (r : TopicManager.Added) : TopicPlace :=
  match r.topic with
  | some topic => .got name depth (some topic)
  | none => if r.alreadyExist then .lookup name (depth + 1) else .got name depth none

end TopicPlace

/-- The manager and the calls made on it. -/
structure TopicCalls where
  manager : TopicManager
  calls : List TopicPlace
  /-- what `rd_kafka_topic_new` has created, with the names it was created for -/
  created : List (List UInt8 × TopicHandle)
  /-- what `rd_kafka_topic_destroy` was called with -/
  destroyed : List TopicHandle
  /-- the destructor has run -/
  cleaned : Bool

/-- What can happen. -/
inductive TopicEvent where
  | addTopic (name : List UInt8)
  | getOrCreateTopic (name : List UInt8)
  /-- a call takes its next step; `rd_kafka_topic_new`, if it is called, returns `answer` -/
  | advance (call : ℕ) (answer : Option ℕ)
  /-- the producer is freed -/
  | free

namespace TopicCalls

/-- The manager of a new producer. -/
def start : TopicCalls := ⟨.empty, [], [], [], false⟩

/-- The critical section of `AddTopic`. -/
def addSection (s : TopicCalls) (call : ℕ) (name : List UInt8) (answer : Option ℕ)
    (next : TopicManager.Added → TopicPlace) : TopicCalls :=
  let r := s.manager.addTopic name answer
  { s with
    manager := r.manager
    calls := s.calls.set call (next r)
    created := s.created ++ (r.created.map (name, ·)).toList }

/-- The next step of a call, from where it stands. -/
def advance (s : TopicCalls) (call : ℕ) (answer : Option ℕ) : TopicPlace → Option TopicCalls
  | .add name => some (s.addSection call name answer (.afterAdd name))
  | .lookup name depth =>
    let place := .afterLookup name depth (s.manager.topics.lookup name)
    some { s with calls := s.calls.set call place }
  | .create name depth => some (s.addSection call name answer (.afterCreate name depth))
  | .added _ _ _ | .got _ _ _ => none

/-- One step. -/
def step (s : TopicCalls) : TopicEvent → Option TopicCalls
  | .addTopic name => if s.cleaned then none else some { s with calls := s.calls ++ [.add name] }
  | .getOrCreateTopic name =>
    if s.cleaned then none else some { s with calls := s.calls ++ [.lookup name 0] }
  | .advance call answer => s.calls[call]?.bind (s.advance call answer)
  | .free =>
    if s.cleaned = false ∧ ∀ place ∈ s.calls, place.returned then
      let (manager, destroyed) := s.manager.cleanup
      some { s with manager, destroyed := s.destroyed ++ destroyed, cleaned := true }
    else none

/-! ## What every run keeps -/

end TopicCalls

/-- What a call may say, after these handles have been created. -/
def TopicPlace.Sound (created : List (List UInt8 × TopicHandle)) : TopicPlace → Prop
  | .add _ => True
  | .added name topic _ => ∀ handle ∈ topic, (name, handle) ∈ created
  | .lookup name depth => depth = 0 ∨ depth = 1 ∧ name ∈ created.map Prod.fst
  | .create _ depth => depth = 0
  | .got name depth topic => depth ≤ 1 ∧ ∀ handle ∈ topic, (name, handle) ∈ created

theorem TopicPlace.Sound.mono {created created' : List (List UInt8 × TopicHandle)}
    {place : TopicPlace} (h : place.Sound created) (hsub : created ⊆ created') :
    place.Sound created' := by
  cases place with
  | add => trivial
  | added => exact fun handle hhandle => hsub (h handle hhandle)
  | lookup => exact h.imp_right (And.imp_right fun hname => List.map_subset _ hsub hname)
  | create => exact h
  | got => exact ⟨h.1, fun handle hhandle => hsub (h.2 handle hhandle)⟩

namespace TopicCalls

/-- What every run keeps: the map holds exactly the handles that were created, until it is cleaned
up, and what the calls say is sound. -/
structure Kept (s : TopicCalls) : Prop where
  names : (s.created.map Prod.fst).Nodup
  calls : ∀ place ∈ s.calls, place.Sound s.created
  running : s.cleaned = false → Directory.Agrees s.created s.manager.topics ∧ s.destroyed = []
  cleaned : s.cleaned = true →
    s.manager = .empty ∧ s.destroyed.Perm (s.created.map Prod.snd) ∧
      ∀ place ∈ s.calls, place.returned = true

theorem kept_start : start.Kept where
  names := List.nodup_nil
  calls := by simp [start]
  running _ := ⟨Directory.agrees_empty_iff.2 rfl, rfl⟩
  cleaned h := by cases h

/-- The places of the calls after one of them has moved. -/
theorem sound_set {created : List (List UInt8 × TopicHandle)} {places : List TopicPlace}
    (h : ∀ place ∈ places, place.Sound created) {next : TopicPlace} (hnext : next.Sound created)
    (call : ℕ) : ∀ place ∈ places.set call next, place.Sound created := by
  intro place hplace
  rcases List.mem_or_eq_of_mem_set hplace with hplace | rfl
  · exact h place hplace
  · exact hnext

/-- While a call has not returned, the producer has not been freed. -/
theorem Kept.not_cleaned {s : TopicCalls} (h : s.Kept) {place : TopicPlace}
    (hplace : place ∈ s.calls) (hreturned : place.returned = false) : s.cleaned = false := by
  by_contra hcleaned
  have htrue := (h.cleaned (Bool.of_not_eq_false hcleaned)).2.2 place hplace
  rw [hreturned] at htrue
  cases htrue

/-- The critical section of `AddTopic` keeps the invariant, whatever becomes of its result. -/
theorem Kept.addSection {s : TopicCalls} (h : s.Kept) (hcleaned : s.cleaned = false) (call : ℕ)
    (name : List UInt8) (answer : Option ℕ) {next : TopicManager.Added → TopicPlace}
    (hexist : name ∈ s.created.map Prod.fst →
      (next ⟨s.manager, none, true, none⟩).Sound s.created)
    (hfailed : (next ⟨s.manager, none, false, none⟩).Sound s.created)
    (hadded : ∀ manager topic,
      (next ⟨manager, some topic, false, some topic⟩).Sound (s.created ++ [(name, topic)])) :
    (s.addSection call name answer next).Kept := by
  obtain ⟨hagrees, hdestroyed⟩ := h.running hcleaned
  have hcontra : ∀ {p : Prop}, s.cleaned = true → p := fun htrue => by simp [hcleaned] at htrue
  rcases TopicManager.addTopic_cases s.manager name answer with
    ⟨hmem, hadd⟩ | ⟨-, -, hadd⟩ | ⟨hmem, topic, htopic, -, hadd⟩ <;>
    simp only [TopicCalls.addSection, hadd, Option.map_none, Option.map_some, Option.toList_none,
      Option.toList_some, List.append_nil]
  · have hnext := hexist (hagrees.mem_iff.1 hmem)
    exact ⟨h.names, sound_set h.calls hnext call, fun _ => ⟨hagrees, hdestroyed⟩, hcontra⟩
  · exact ⟨h.names, sound_set h.calls hfailed call, fun _ => ⟨hagrees, hdestroyed⟩, hcontra⟩
  · have hnames : ((s.created ++ [(name, topic)]).map Prod.fst).Nodup := by
      rw [List.map_append]
      refine List.nodup_append'.2 ⟨h.names, List.nodup_singleton _, ?_⟩
      exact List.disjoint_singleton.2 (mt hagrees.mem_iff.2 hmem)
    have hcalls : ∀ place ∈ s.calls, place.Sound (s.created ++ [(name, topic)]) :=
      fun place hplace => (h.calls place hplace).mono (List.subset_append_left _ _)
    have hfiled : Directory.Agrees (s.created ++ [(name, topic)])
        (s.manager.topics.insert name topic) :=
      (Directory.agrees_append_insertAll_iff hagrees
        (List.Nodup.of_map _ hnames)).2 ⟨List.nodup_singleton _, by simpa using hmem⟩
    exact ⟨hnames, sound_set hcalls (hadded _ topic) call, fun _ => ⟨hfiled, hdestroyed⟩, hcontra⟩

theorem Kept.advance {s t : TopicCalls} (h : s.Kept) {call : ℕ} {answer : Option ℕ}
    {place : TopicPlace} (hplace : s.calls[call]? = some place)
    (hstep : s.advance call answer place = some t) : t.Kept := by
  have hmem : place ∈ s.calls := List.mem_of_getElem? hplace
  have hsound := h.calls place hmem
  cases place with
  | added | got => cases hstep
  | add name =>
    obtain rfl := Option.some.inj hstep
    refine h.addSection (h.not_cleaned hmem rfl) call name answer ?_ ?_ ?_
    · simp [TopicPlace.afterAdd, TopicPlace.Sound]
    · simp [TopicPlace.afterAdd, TopicPlace.Sound]
    · simp [TopicPlace.afterAdd, TopicPlace.Sound]
  | create name depth =>
    obtain rfl := Option.some.inj hstep
    obtain rfl : depth = 0 := hsound
    refine h.addSection (h.not_cleaned hmem rfl) call name answer (fun hname => ?_) ?_ ?_
    · exact Or.inr ⟨rfl, hname⟩
    · simp [TopicPlace.afterCreate, TopicPlace.Sound]
    · simp [TopicPlace.afterCreate, TopicPlace.Sound]
  | lookup name depth =>
    obtain rfl := Option.some.inj hstep
    have hcleaned := h.not_cleaned hmem rfl
    obtain ⟨hagrees, -⟩ := h.running hcleaned
    have hnext : (TopicPlace.afterLookup name depth (s.manager.topics.lookup name)).Sound
        s.created := by
      cases hlookup : s.manager.topics.lookup name with
      | some topic =>
        refine ⟨by rcases hsound with hdepth | hdepth <;> omega, ?_⟩
        rintro _ ⟨⟩
        exact (hagrees name topic).2 hlookup
      | none =>
        -- after a recursive call the name is there
        refine hsound.resolve_right fun hsecond => ?_
        exact AList.lookup_eq_none.1 hlookup (hagrees.mem_iff.2 hsecond.2)
    refine ⟨h.names, sound_set h.calls hnext call, h.running, fun htrue => ?_⟩
    rw [hcleaned] at htrue
    cases htrue

theorem Kept.call {s : TopicCalls} (h : s.Kept) (hcleaned : s.cleaned = false) {place : TopicPlace}
    (hplace : place.Sound s.created) : Kept { s with calls := s.calls ++ [place] } := by
  refine ⟨h.names, fun place' hplace' => ?_, h.running, fun htrue => ?_⟩
  · rcases List.mem_append.1 hplace' with hplace' | hplace'
    · exact h.calls place' hplace'
    · exact List.mem_singleton.1 hplace' ▸ hplace
  · change s.cleaned = true at htrue
    rw [hcleaned] at htrue
    cases htrue

/-- **One step keeps the map in order.** -/
theorem Kept.step {s t : TopicCalls} {e : TopicEvent} (h : s.Kept) (hstep : s.step e = some t) :
    t.Kept := by
  cases e with
  | addTopic name =>
    simp only [TopicCalls.step] at hstep
    split_ifs at hstep with hcleaned
    exact Option.some.inj hstep ▸ h.call (Bool.of_not_eq_true hcleaned) trivial
  | getOrCreateTopic name =>
    simp only [TopicCalls.step] at hstep
    split_ifs at hstep with hcleaned
    exact Option.some.inj hstep ▸ h.call (Bool.of_not_eq_true hcleaned) (Or.inl rfl)
  | advance call answer =>
    obtain ⟨place, hplace, hadvance⟩ := Option.bind_eq_some_iff.1 hstep
    exact h.advance hplace hadvance
  | free =>
    simp only [TopicCalls.step] at hstep
    split_ifs at hstep with hfree
    obtain rfl := Option.some.inj hstep
    obtain ⟨hagrees, hdestroyed⟩ := h.running hfree.1
    refine ⟨h.names, h.calls, fun hfalse => (by cases hfalse), fun _ => ⟨rfl, ?_, hfree.2⟩⟩
    have hperm := hagrees.perm (List.Nodup.of_map _ h.names)
    have hhandles := hperm.map Prod.snd
    rw [List.map_map] at hhandles
    rw [hdestroyed, List.nil_append]
    exact hhandles

/-! ## The steps of a call -/

end TopicCalls

/-- The steps that a call can still take. -/
def TopicPlace.remaining : TopicPlace → ℕ
  | .add _ => 1
  | .lookup _ depth => 3 - 2 * depth
  | .create _ _ => 2
  | .added _ _ _ | .got _ _ _ => 0

/-- The event is a step of the call. -/
def TopicEvent.isStepOf (call : ℕ) : TopicEvent → Bool
  | .advance call' _ => call' = call
  | _ => false

namespace TopicCalls

/-- The steps that a call can still take; one that has not been made has none. -/
def remaining (s : TopicCalls) (call : ℕ) : ℕ := (s.calls[call]?.map (·.remaining)).getD 0

/-- A step of a call uses up one of its steps. -/
theorem Kept.remaining_advance {s t : TopicCalls} (h : s.Kept) {call : ℕ} {answer : Option ℕ}
    {place : TopicPlace} (hplace : s.calls[call]? = some place)
    (hstep : s.advance call answer place = some t) :
    ∃ next, t.calls = s.calls.set call next ∧ next.remaining + 1 ≤ place.remaining := by
  have hsound := h.calls place (List.mem_of_getElem? hplace)
  cases place with
  | added | got => cases hstep
  | add name =>
    obtain rfl := Option.some.inj hstep
    exact ⟨_, rfl, le_refl _⟩
  | create name depth =>
    obtain rfl := Option.some.inj hstep
    obtain rfl : depth = 0 := hsound
    refine ⟨_, rfl, ?_⟩
    rcases TopicManager.addTopic_cases s.manager name answer with
      ⟨-, hadd⟩ | ⟨-, -, hadd⟩ | ⟨-, topic, _, -, hadd⟩ <;>
      simp [hadd, TopicPlace.afterCreate, TopicPlace.remaining]
  | lookup name depth =>
    obtain rfl := Option.some.inj hstep
    refine ⟨_, rfl, ?_⟩
    cases hlookup : s.manager.topics.lookup name with
    | some topic =>
      have hdepth : depth ≤ 1 := by rcases hsound with hdepth | hdepth <;> omega
      simp only [TopicPlace.afterLookup, TopicPlace.remaining]
      omega
    | none =>
      have hrunning := h.running (h.not_cleaned (List.mem_of_getElem? hplace) rfl)
      have hfirst : depth = 0 := hsound.resolve_right fun hsecond =>
        AList.lookup_eq_none.1 hlookup (hrunning.1.mem_iff.2 hsecond.2)
      simp [TopicPlace.afterLookup, TopicPlace.remaining, hfirst]

/-- The number of steps that a call takes in a run. -/
def stepsOf (call : ℕ) (es : List TopicEvent) : ℕ := es.countP (·.isStepOf call)

/-- What the run so far says about the steps of the calls: no call takes more than three. -/
structure Counted (es : List TopicEvent) (s : TopicCalls) : Prop where
  kept : s.Kept
  made : ∀ call, stepsOf call es + s.remaining call ≤ 3
  unmade : ∀ call, s.calls.length ≤ call → stepsOf call es = 0

theorem stepsOf_concat (call : ℕ) (es : List TopicEvent) (e : TopicEvent) :
    stepsOf call (es ++ [e]) = stepsOf call es + if e.isStepOf call then 1 else 0 := by
  simp [stepsOf, List.countP_append, List.countP_singleton]

/-- A step that makes a call or none. -/
theorem Counted.call {es : List TopicEvent} {s t : TopicCalls} {e : TopicEvent} (h : Counted es s)
    (ht : t.Kept) (he : ∀ call, e.isStepOf call = false) (places : List TopicPlace)
    (hcalls : t.calls = s.calls ++ places) (hplaces : ∀ place ∈ places, place.remaining ≤ 3) :
    Counted (es ++ [e]) t := by
  have hsteps : ∀ call, stepsOf call (es ++ [e]) = stepsOf call es := fun call => by
    rw [stepsOf_concat, he call]
    rfl
  refine ⟨ht, fun call => ?_, fun call hcall => ?_⟩
  · rw [hsteps, remaining, hcalls]
    by_cases hcall : call < s.calls.length
    · rw [List.getElem?_append_left hcall]
      exact h.made call
    · have hge := Nat.le_of_not_lt hcall
      rw [h.unmade call hge, List.getElem?_append_right hge]
      cases hplace : places[call - s.calls.length]? with
      | none => simp
      | some place => simpa using hplaces place (List.mem_of_getElem? hplace)
  · rw [hcalls, List.length_append] at hcall
    rw [hsteps]
    exact h.unmade call (by omega)

theorem Counted.step {es : List TopicEvent} {s t : TopicCalls} {e : TopicEvent} (h : Counted es s)
    (hstep : s.step e = some t) : Counted (es ++ [e]) t := by
  have ht := h.kept.step hstep
  cases e with
  | addTopic name =>
    simp only [TopicCalls.step] at hstep
    split_ifs at hstep
    refine h.call ht (fun _ => rfl) [.add name] (by rw [← Option.some.inj hstep]) ?_
    simp [TopicPlace.remaining]
  | getOrCreateTopic name =>
    simp only [TopicCalls.step] at hstep
    split_ifs at hstep
    refine h.call ht (fun _ => rfl) [.lookup name 0] (by rw [← Option.some.inj hstep]) ?_
    simp [TopicPlace.remaining]
  | free =>
    simp only [TopicCalls.step] at hstep
    split_ifs at hstep
    refine h.call ht (fun _ => rfl) [] ?_ (by simp)
    rw [← Option.some.inj hstep, List.append_nil]
  | advance call answer =>
    obtain ⟨place, hplace, hadvance⟩ := Option.bind_eq_some_iff.1 hstep
    obtain ⟨next, hcalls, hless⟩ := h.kept.remaining_advance hplace hadvance
    have hlt : call < s.calls.length := (List.getElem?_eq_some_iff.1 hplace).1
    refine ⟨ht, fun call' => ?_, fun call' hcall' => ?_⟩
    · have hmade := h.made call'
      by_cases heq : call = call'
      · subst heq
        simp only [remaining, hplace, Option.map_some, Option.getD_some] at hmade
        simp only [stepsOf_concat, TopicEvent.isStepOf, remaining, hcalls,
          List.getElem?_set_self hlt, Option.map_some, Option.getD_some, decide_true, if_true]
        omega
      · simpa [stepsOf_concat, TopicEvent.isStepOf, remaining, hcalls, List.getElem?_set_ne heq,
          heq] using hmade
    · rw [hcalls, List.length_set] at hcall'
      have hne : call ≠ call' := by omega
      simpa [stepsOf_concat, TopicEvent.isStepOf, hne] using h.unmade call' hcall'

/-! ## One handle -/

/-- The purpose of the manager, for the state after a run. -/
structure OneHandle (es : List TopicEvent) (s : TopicCalls) : Prop where
  /-- no name ever gets a second handle -/
  once : (s.created.map Prod.fst).Nodup
  /-- no handle is dropped -/
  filed : s.cleaned = false →
    ∀ name topic, s.manager.topics.lookup name = some topic ↔ (name, topic) ∈ s.created
  /-- calls for a name return its handle -/
  got : ∀ name depth topic, .got name depth (some topic) ∈ s.calls → (name, topic) ∈ s.created
  added : ∀ name topic exist, .added name (some topic) exist ∈ s.calls → (name, topic) ∈ s.created
  same : ∀ name depth depth' topic topic', .got name depth (some topic) ∈ s.calls →
    .got name depth' (some topic') ∈ s.calls → topic = topic'
  /-- `AddTopic` knows whether the name was there -/
  exist : ∀ call name answer t, s.calls[call]? = some (.add name) →
    s.step (.advance call answer) = some t → ∃ topic exist,
      t.calls[call]? = some (.added name topic exist) ∧ (exist = true ↔ name ∈ s.manager.topics)
  /-- a step that creates nothing leaves the map -/
  failed : ∀ call answer t, s.step (.advance call answer) = some t → t.created = s.created →
    t.manager = s.manager
  /-- `GetOrCreateTopic` calls itself once at most -/
  recursion : ∀ place ∈ s.calls, place.depth ≤ 1
  /-- a call can go on until it has returned, and does so in three steps -/
  goesOn : ∀ call place answer, s.calls[call]? = some place → place.returned = false →
    ∃ t, s.step (.advance call answer) = some t
  ends : ∀ call, stepsOf call es ≤ 3
  /-- each handle is destroyed once, when the producer is freed -/
  kept : s.cleaned = false → s.destroyed = []
  destroyed : s.cleaned = true →
    s.manager.topics = ∅ ∧ s.destroyed.Perm (s.created.map Prod.snd)

theorem depth_le_of_sound {created : List (List UInt8 × TopicHandle)} {place : TopicPlace}
    (h : place.Sound created) : place.depth ≤ 1 := by
  cases place with
  | add | added => exact Nat.zero_le _
  | lookup => rcases h with h | h <;> simp only [TopicPlace.depth] <;> omega
  | create => exact le_of_eq_of_le h (Nat.zero_le _)
  | got => exact h.1

theorem manager_of_created {s t : TopicCalls} {call : ℕ} {answer : Option ℕ}
    (hstep : s.step (.advance call answer) = some t) (hcreated : t.created = s.created) :
    t.manager = s.manager := by
  have hsection : ∀ name (next : TopicManager.Added → TopicPlace),
      (s.addSection call name answer next).created = s.created →
        (s.addSection call name answer next).manager = s.manager := by
    intro name next hsame
    rcases TopicManager.addTopic_cases s.manager name answer with
      ⟨-, hadd⟩ | ⟨-, -, hadd⟩ | ⟨-, topic, _, -, hadd⟩
    · simp [addSection, hadd]
    · simp [addSection, hadd]
    · simp [addSection, hadd] at hsame
  obtain ⟨place, -, hadvance⟩ := Option.bind_eq_some_iff.1 hstep
  cases place with
  | added | got => cases hadvance
  | add name =>
    obtain rfl := Option.some.inj hadvance
    exact hsection name _ hcreated
  | create name depth =>
    obtain rfl := Option.some.inj hadvance
    exact hsection name _ hcreated
  | lookup name depth =>
    obtain rfl := Option.some.inj hadvance
    rfl

/-- **One handle per name**, in every interleaving. -/
theorem oneHandle_of_run {es : List TopicEvent} {s : TopicCalls}
    (hrun : run step start es = some s) : OneHandle es s := by
  have hcounted : Counted es s := run_history (P := Counted)
    ⟨kept_start, fun _ => by simp [stepsOf, remaining, start], fun _ _ => rfl⟩
    (fun _ _ _ _ h hstep => h.step hstep) hrun
  have hkept := hcounted.kept
  have hgot : ∀ name depth topic, .got name depth (some topic) ∈ s.calls →
      (name, topic) ∈ s.created :=
    fun name depth topic hplace => (hkept.calls _ hplace).2 topic rfl
  refine ⟨hkept.names, fun hcleaned name topic => ?_, hgot, fun name topic exist hplace => ?_,
    fun name depth depth' topic topic' h h' => ?_, fun call name answer t hplace hstep => ?_,
    fun call answer t => manager_of_created, fun place hplace => ?_,
    fun call place answer hplace hreturned => ?_, fun call => ?_, fun hcleaned => ?_,
    fun hcleaned => ?_⟩
  · exact ((hkept.running hcleaned).1 name topic).symm
  · exact hkept.calls _ hplace topic rfl
  · exact (Prod.mk.inj (List.inj_on_of_nodup_map hkept.names (hgot _ _ _ h) (hgot _ _ _ h') rfl)).2
  · obtain ⟨place, hplace', hadvance⟩ := Option.bind_eq_some_iff.1 hstep
    obtain rfl := Option.some.inj (hplace.symm.trans hplace')
    obtain rfl := Option.some.inj hadvance
    have hlt : call < s.calls.length := (List.getElem?_eq_some_iff.1 hplace).1
    exact ⟨_, _, List.getElem?_set_self hlt, TopicManager.alreadyExist_addTopic⟩
  · exact depth_le_of_sound (hkept.calls place hplace)
  · simp only [TopicCalls.step, hplace, Option.bind_some]
    cases place with
    | added | got => cases hreturned
    | add | lookup | create => exact ⟨_, rfl⟩
  · exact le_trans (Nat.le_add_right _ _) (hcounted.made call)
  · exact (hkept.running hcleaned).2
  · obtain ⟨hmanager, hdestroyed, -⟩ := hkept.cleaned hcleaned
    exact ⟨congrArg TopicManager.topics hmanager, hdestroyed⟩

/-- Two threads create the handle of a topic at the same time, after librdkafka has refused to. -/
theorem oneHandle_sample : ∃ s,
    run step start
      [.getOrCreateTopic [116], .advance 0 none, .advance 0 none, .getOrCreateTopic [116],
        .getOrCreateTopic [116], .advance 1 none, .advance 2 none, .advance 1 (some 7),
        .advance 2 (some 8), .advance 2 none, .addTopic [116], .advance 3 (some 9), .free] =
      some s ∧
    OneHandle
      [.getOrCreateTopic [116], .advance 0 none, .advance 0 none, .getOrCreateTopic [116],
        .getOrCreateTopic [116], .advance 1 none, .advance 2 none, .advance 1 (some 7),
        .advance 2 (some 8), .advance 2 none, .addTopic [116], .advance 3 (some 9), .free] s :=
  ⟨_, rfl, oneHandle_of_run rfl⟩

/-- A call of `GetOrCreateTopic` that no other call interrupts. -/
theorem getOrCreateTopic_eq_run (s : TopicCalls) (hcleaned : s.cleaned = false) (name : List UInt8)
    (answer : Option ℕ) : ∃ es t,
      (∀ e ∈ es, e.isStepOf s.calls.length = true) ∧
      run step s (.getOrCreateTopic name :: es) = some t ∧
      t.manager = (s.manager.getOrCreateTopic name answer).1 ∧
      t.calls = s.calls ++ [.got name 0 (s.manager.getOrCreateTopic name answer).2] := by
  rw [TopicManager.getOrCreateTopic_eq]
  cases hlookup : s.manager.topics.lookup name with
  | some topic =>
    refine ⟨[.advance s.calls.length answer],
      { s with calls := s.calls ++ [.got name 0 (some topic)] }, ?_, ?_, rfl, rfl⟩
    · simp [TopicEvent.isStepOf]
    · simp [step, hcleaned, advance, hlookup, TopicPlace.afterLookup]
  | none =>
    have hmem : name ∉ s.manager.topics := AList.lookup_eq_none.1 hlookup
    have hnew : (s.manager.addTopic name answer).alreadyExist = false :=
      Bool.of_not_eq_true (mt TopicManager.alreadyExist_addTopic.1 hmem)
    refine ⟨[.advance s.calls.length answer, .advance s.calls.length answer],
      { s with
        manager := (s.manager.addTopic name answer).manager
        calls := s.calls ++ [.got name 0 (s.manager.addTopic name answer).topic]
        created := s.created ++ ((s.manager.addTopic name answer).created.map (name, ·)).toList },
      ?_, ?_, rfl, rfl⟩
    · simp [TopicEvent.isStepOf]
    · cases htopic : (s.manager.addTopic name answer).topic <;>
        simp [step, hcleaned, advance, hlookup, TopicPlace.afterLookup, addSection,
          TopicPlace.afterCreate, htopic, hnew]

end TopicCalls

end Exrdkafka.Nif
