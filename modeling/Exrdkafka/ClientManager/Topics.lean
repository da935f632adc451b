import Exrdkafka.ClientManager
import Exrdkafka.Nif.Utils

/-!
# The topics of a consumer group

The manager checks the topics of a new group, the group takes their names, and the library builds a
subscription from these, which it checks once more. `Settled` is what the two checks together are
for: a list is accepted if all its elements are topics, the first one that is none is reported
otherwise, and an accepted list is subscribed to.

* `lookupIn_eq_none_iff`: on which settings a lookup raises.
* `settled_iff`: the checks do what they are for unless a lookup raises, the list is empty or a name
  contains a zero byte.
-/

namespace Exrdkafka

/-! ## The subscription -/

namespace Nif

/-- The loop of `topic_subscribe`, over the cells of the list. -/
def addTopics : List Term → Option (List (List UInt8))
  | [] => some []
  | head :: rest =>
    match getString head with
    | none => none
    | some name => (addTopics rest).map (cStr name :: ·)

/-- `topic_subscribe`: the names of the subscription, `none` for an invalid topic list. -/
def topicSubscribe (list : Term) : Option (List (List UInt8)) :=
  match list.toList? with
  | none => none
  | some elems => if elems.length < 1 then none else addTopics elems

end Nif

namespace ConsumerGroup

/-- `Enum.map(topics, fn {k, _} -> k end)`; `none` when it raises. -/
def topicsNames : List Term → Option (List Term)
  | [] => some []
  | .tuple [k, _] :: rest => (topicsNames rest).map (k :: ·)
  | _ :: _ => none

end ConsumerGroup

/-! ## Lookups that raise -/

namespace Utils

/-- A lookup gets to an element that is no pair, or to an improper end, before it finds the key. -/
inductive Broken (key : Term) : Term → Prop
  | elem {h t : Term} (h' : ∀ k v, h ≠ .tuple [k, v]) : Broken key (.cons h t)
  | tail {t : Term} (hnil : t ≠ .nil) (hcons : ∀ h t', t ≠ .cons h t') : Broken key t
  | next {k v t : Term} (hk : k ≠ key) (ht : Broken key t) : Broken key (.cons (.tuple [k, v]) t)

/-- Settings that are a list of pairs are not broken. -/
theorem lookupIn_eq_none_iff {key : Term} (t : Term) : lookupIn key t = none ↔ Broken key t := by
  fun_induction lookupIn key t with
  | case1 =>
    refine iff_of_false (by simp) fun h => ?_
    cases h with
    | tail hnil _ => exact hnil rfl
  | case2 v t =>
    refine iff_of_false (by simp) fun h => ?_
    cases h with
    | elem h' => exact h' key v rfl
    | tail _ hcons => exact hcons _ _ rfl
    | next hne _ => exact hne rfl
  | case3 k v t hk ih =>
    rw [ih]
    refine ⟨Broken.next hk, fun h => ?_⟩
    cases h with
    | elem h' => exact absurd rfl (h' k v)
    | tail _ hcons => exact absurd rfl (hcons _ _)
    | next _ ht => exact ht
  | case4 t hnil hpair =>
    refine iff_of_true rfl ?_
    cases t with
    | nil => exact absurd rfl hnil
    | cons h t => exact .elem fun k v heq => hpair k v t (by rw [heq])
    | _ => exact .tail (by simp) (by simp)

end Utils

/-! ## The two checks -/

namespace ClientManager

/-- A name and settings with a callback module. -/
def IsTopic (x : Term) : Prop :=
  ∃ name settings module, x = .tuple [.binary name, settings] ∧ isList settings = true ∧
    Utils.lookupIn (.atom "callback_module") settings = some (.atom module) ∧ module ≠ "undefined"

/-- A name and settings in which the lookup of the callback module raises. -/
def IsBroken (x : Term) : Prop :=
  ∃ name settings, x = .tuple [.binary name, settings] ∧ isList settings = true ∧
    Utils.Broken (.atom "callback_module") settings

/-- The names of the topics. -/
def names (topics : List Term) : List (List UInt8) :=
  topics.filterMap fun
    | .tuple [.binary name, _] => some name
    | _ => none

/-- The purpose of the two checks, for the list `topics`. -/
structure Settled (topics : List Term) : Prop where
  /-- the manager accepts the list if all its elements are topics -/
  accepted : validConsumerTopics (Term.ofList topics) = some none ↔ ∀ x ∈ topics, IsTopic x
  /-- and reports the first one that is none -/
  rejected : ∀ pre x post, topics = pre ++ x :: post → (∀ y ∈ pre, IsTopic y) → ¬ IsTopic x →
    validConsumerTopics (Term.ofList topics) = some (some x)
  /-- the library subscribes to the topics of a list that the manager accepts -/
  subscribed : validConsumerTopics (Term.ofList topics) = some none →
    (ConsumerGroup.topicsNames topics).bind (fun list => Nif.topicSubscribe (Term.ofList list)) =
      some (names topics)

theorem IsTopic.not_isBroken {x : Term} (h : IsTopic x) : ¬ IsBroken x := by
  obtain ⟨name, settings, module, rfl, -, hlookup, -⟩ := h
  rintro ⟨name', settings', heq, -, hbroken⟩
  obtain ⟨-, rfl⟩ : name = name' ∧ settings = settings' := by simpa using heq
  rw [(Utils.lookupIn_eq_none_iff settings).2 hbroken] at hlookup
  cases hlookup

/-! ## The check of the manager -/

/-- A topic is passed over. -/
theorem validConsumerTopics_of_isTopic {x : Term} (h : IsTopic x) (t : Term) :
    validConsumerTopics (.cons x t) = validConsumerTopics t := by
  obtain ⟨name, settings, module, rfl, hlist, hlookup, hmodule⟩ := h
  have hmod : Term.atom module ≠ .undefined ∧ isAtom (.atom module) = true :=
    ⟨by simpa [Term.undefined] using hmodule, rfl⟩
  rw [validConsumerTopics, if_pos hlist, hlookup]
  exact if_pos hmod

/-- The check raises at broken settings. -/
theorem validConsumerTopics_of_isBroken {x : Term} (h : IsBroken x) (t : Term) :
    validConsumerTopics (.cons x t) = none := by
  obtain ⟨name, settings, rfl, hlist, hbroken⟩ := h
  rw [validConsumerTopics, if_pos hlist, (Utils.lookupIn_eq_none_iff settings).2 hbroken]

/-- Anything else is reported. -/
theorem validConsumerTopics_of_not {x : Term} (htopic : ¬ IsTopic x) (hbroken : ¬ IsBroken x)
    (t : Term) : validConsumerTopics (.cons x t) = some (some x) := by
  by_cases hpair : ∃ name settings, x = .tuple [.binary name, settings]
  · obtain ⟨name, settings, rfl⟩ := hpair
    by_cases hlist : isList settings = true
    · rw [validConsumerTopics, if_pos hlist]
      cases hlookup : Utils.lookupIn (.atom "callback_module") settings with
      | none =>
        exact absurd ⟨name, settings, rfl, hlist, (Utils.lookupIn_eq_none_iff settings).1 hlookup⟩
          hbroken
      | some mod =>
        refine if_neg ?_
        rintro ⟨hundefined, hatom⟩
        cases mod with
        | atom module =>
          refine htopic ⟨name, settings, module, rfl, hlist, hlookup, ?_⟩
          rintro rfl
          exact hundefined rfl
        | _ => cases hatom
    · rw [validConsumerTopics, if_neg hlist]
  · rw [validConsumerTopics]
    rintro name settings rfl
    exact hpair ⟨name, settings, rfl⟩

theorem validConsumerTopics_append {pre : List Term} (h : ∀ y ∈ pre, IsTopic y)
    (rest : List Term) : validConsumerTopics (Term.ofList (pre ++ rest)) =
      validConsumerTopics (Term.ofList rest) := by
  induction pre with
  | nil => rfl
  | cons y pre ih =>
    rw [List.cons_append, Term.ofList, validConsumerTopics_of_isTopic (h y List.mem_cons_self)]
    exact ih fun z hz => h z (List.mem_cons_of_mem y hz)

/-- A list of topics is accepted. -/
theorem validConsumerTopics_of_forall {topics : List Term} (h : ∀ x ∈ topics, IsTopic x) :
    validConsumerTopics (Term.ofList topics) = some none := by
  have happend := validConsumerTopics_append h []
  rwa [List.append_nil] at happend

/-- Every other list has a first element that is no topic. -/
theorem forall_or_first (topics : List Term) : (∀ x ∈ topics, IsTopic x) ∨
    ∃ pre x post, topics = pre ++ x :: post ∧ (∀ y ∈ pre, IsTopic y) ∧ ¬ IsTopic x := by
  induction topics with
  | nil => exact Or.inl (by simp)
  | cons x rest ih =>
    by_cases hx : IsTopic x
    · refine ih.imp (fun hall => List.forall_mem_cons.2 ⟨hx, hall⟩) ?_
      rintro ⟨pre, y, post, rfl, hpre, hy⟩
      exact ⟨x :: pre, y, post, rfl, List.forall_mem_cons.2 ⟨hx, hpre⟩, hy⟩
    · exact Or.inr ⟨[], x, rest, rfl, by simp, hx⟩

/-! ## The check of the library -/

theorem topicsNames_of_forall {topics : List Term} (h : ∀ x ∈ topics, IsTopic x) :
    ConsumerGroup.topicsNames topics = some ((names topics).map .binary) := by
  induction topics with
  | nil => rfl
  | cons x rest ih =>
    obtain ⟨hx, hrest⟩ := List.forall_mem_cons.1 h
    obtain ⟨name, settings, module, rfl, -⟩ := hx
    rw [ConsumerGroup.topicsNames, ih hrest]
    rfl

theorem length_names {topics : List Term} (h : ∀ x ∈ topics, IsTopic x) :
    (names topics).length = topics.length := by
  induction topics with
  | nil => rfl
  | cons x rest ih =>
    obtain ⟨hx, hrest⟩ := List.forall_mem_cons.1 h
    obtain ⟨name, settings, module, rfl, -⟩ := hx
    exact congrArg (· + 1) (ih hrest)

theorem addTopics_map_binary (list : List (List UInt8)) :
    Nif.addTopics (list.map .binary) = some (list.map Nif.cStr) := by
  induction list with
  | nil => rfl
  | cons name rest ih =>
    rw [List.map_cons, Nif.addTopics, ih]
    rfl

/-- The library takes the names as C strings, and no empty list. -/
theorem topicSubscribe_names {topics : List Term} (h : ∀ x ∈ topics, IsTopic x) :
    (ConsumerGroup.topicsNames topics).bind (fun list => Nif.topicSubscribe (Term.ofList list)) =
      if topics = [] then none else some ((names topics).map Nif.cStr) := by
  rw [topicsNames_of_forall h, Option.bind_some, Nif.topicSubscribe, Term.toList?_ofList]
  simp only [addTopics_map_binary, List.length_map, length_names h, Nat.lt_one_iff,
    List.length_eq_zero_iff]

theorem map_cStr_eq_iff (list : List (List UInt8)) :
    list.map Nif.cStr = list ↔ ∀ name ∈ list, 0 ∉ name := by
  conv_lhs => rhs; rw [← List.map_id list]
  rw [List.map_inj_left]
  exact forall₂_congr fun name _ => Nif.cStr_eq_self_iff name

/-! ## When the two checks agree -/

/-- **When a list of topics is settled**: the first element that is no topic does not make the
lookup raise, and a list of topics is not empty and has no name with a zero byte. -/
theorem settled_iff (topics : List Term) : Settled topics ↔
    (∀ pre x post, topics = pre ++ x :: post → (∀ y ∈ pre, IsTopic y) → ¬ IsBroken x) ∧
      ((∀ x ∈ topics, IsTopic x) → topics ≠ [] ∧ ∀ name ∈ names topics, 0 ∉ name) := by
  have hrejects : ∀ pre x post, topics = pre ++ x :: post → (∀ y ∈ pre, IsTopic y) →
      validConsumerTopics (Term.ofList topics) =
        validConsumerTopics (.cons x (Term.ofList post)) := by
    rintro pre x post rfl hpre
    rw [validConsumerTopics_append hpre]
    rfl
  have hsubscribed : (∀ x ∈ topics, IsTopic x) →
      ((ConsumerGroup.topicsNames topics).bind (fun list => Nif.topicSubscribe (Term.ofList list)) =
          some (names topics) ↔ topics ≠ [] ∧ ∀ name ∈ names topics, 0 ∉ name) := by
    intro hall
    rw [topicSubscribe_names hall, ← map_cStr_eq_iff]
    by_cases hnil : topics = [] <;> simp [hnil]
  constructor
  · intro h
    refine ⟨fun pre x post heq hpre hbroken => ?_, fun hall => ?_⟩
    · have hreported := h.rejected pre x post heq hpre fun hx => hx.not_isBroken hbroken
      rw [hrejects pre x post heq hpre, validConsumerTopics_of_isBroken hbroken] at hreported
      cases hreported
    · exact (hsubscribed hall).1 (h.subscribed (validConsumerTopics_of_forall hall))
  · rintro ⟨hbroken, hall⟩
    have hreported : ∀ pre x post, topics = pre ++ x :: post → (∀ y ∈ pre, IsTopic y) →
        ¬ IsTopic x → validConsumerTopics (Term.ofList topics) = some (some x) := by
      intro pre x post heq hpre hx
      rw [hrejects pre x post heq hpre]
      exact validConsumerTopics_of_not hx (hbroken pre x post heq hpre) _
    have haccepted : validConsumerTopics (Term.ofList topics) = some none →
        ∀ x ∈ topics, IsTopic x := by
      intro h
      rcases forall_or_first topics with htopics | ⟨pre, x, post, heq, hpre, hx⟩
      · exact htopics
      · rw [hreported pre x post heq hpre hx] at h
        cases h
    exact ⟨⟨haccepted, validConsumerTopics_of_forall⟩, hreported, fun h =>
      (hsubscribed (haccepted h)).2 (hall (haccepted h))⟩

/-- The settings of a topic may hold an atom, which the lookup does not expect. -/
def bareAtom : Term := .tuple [.binary [116], .cons (.atom "x") .nil]

/-- The check raises at a bare atom in the settings. -/
theorem bareAtom_not_settled : ¬ Settled [bareAtom] := by
  intro h
  have hnot : ¬ IsTopic bareAtom := by
    rintro ⟨name, settings, module, heq, -, hlookup, -⟩
    obtain ⟨-, rfl⟩ : [116] = name ∧ Term.cons (.atom "x") .nil = settings := by
      simpa [bareAtom] using heq
    cases hlookup
  have hreported := h.rejected [] bareAtom [] rfl (by simp) hnot
  cases hreported

end ClientManager

end Exrdkafka
