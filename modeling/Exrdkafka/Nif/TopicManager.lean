import Mathlib.Data.List.AList
import Exrdkafka.Nif.Utils

/-!
# The topic manager

`TopicManager` files the topic handles of a producer under their names. `AddTopic` creates the
handle of a name that has none, `GetOrCreateTopic` returns the handle of a name and creates it when
there is none, and the destructor destroys all handles. The calls are taken one at a time here; see
`Nif.OneHandle` for calls that run at the same time.

* `addTopic_cases`: the three outcomes of `AddTopic`.
* `getOrCreateTopic_eq`: a call of `GetOrCreateTopic` that runs alone creates at most one handle.
-/

namespace Exrdkafka.Nif

/-- `rd_kafka_topic_t`: its address and the topic it was created for. -/
structure TopicHandle where
  address : ℕ
  topic : List UInt8
  deriving DecidableEq

/-- `rd_kafka_topic_new`, which may fail; the address is an input. -/
def rdKafkaTopicNew (name : List UInt8) (answer : Option ℕ) : Option TopicHandle :=
  answer.map fun address => ⟨address, name⟩

theorem topic_of_rdKafkaTopicNew {name : List UInt8} {answer : Option ℕ} {topic : TopicHandle}
    (h : rdKafkaTopicNew name answer = some topic) : topic.topic = name := by
  obtain ⟨address, -, rfl⟩ := Option.map_eq_some_iff.1 h
  rfl

/-- The map `topics_`. A handle is filed under a name that it was created with; the order of the map
plays no role. -/
structure TopicManager where
  topics : AList fun _ : List UInt8 => TopicHandle
  filed : ∀ name topic, topics.lookup name = some topic → topic.topic = cStr name

namespace TopicManager

/-- The manager of a new producer. -/
def empty : TopicManager := ⟨∅, by simp⟩

/-- `topics_[name] = topic` -/
def insert (m : TopicManager) (name : List UInt8) (topic : TopicHandle)
    (h : topic.topic = cStr name) : TopicManager where
  topics := m.topics.insert name topic
  filed name' topic' h' := by
    by_cases hname : name' = name
    · subst hname
      rw [AList.lookup_insert] at h'
      exact Option.some.inj h' ▸ h
    · rw [AList.lookup_insert_ne hname] at h'
      exact m.filed name' topic' h'

/-- What `AddTopic` returns, with the map it leaves and the handle that `rd_kafka_topic_new` made.
-/
structure Added where
  manager : TopicManager
  topic : Option TopicHandle
  alreadyExist : Bool
  created : Option TopicHandle

/-- `AddTopic` -/
def addTopic (m : TopicManager) (name : List UInt8) (answer : Option ℕ) : Added :=
  match m.topics.lookup name with
  | some _ => ⟨m, none, true, none⟩
  | none =>
    match h : rdKafkaTopicNew (cStr name) answer with
    | none => ⟨m, none, false, none⟩
    | some topic =>
      ⟨m.insert name topic (topic_of_rdKafkaTopicNew h), some topic, false, some topic⟩

variable {m : TopicManager} {name : List UInt8} {answer : Option ℕ}

/-- What `AddTopic` can do. -/
theorem addTopic_cases (m : TopicManager) (name : List UInt8) (answer : Option ℕ) :
    (name ∈ m.topics ∧ m.addTopic name answer = ⟨m, none, true, none⟩) ∨
    (name ∉ m.topics ∧ answer = none ∧ m.addTopic name answer = ⟨m, none, false, none⟩) ∨
    (name ∉ m.topics ∧ ∃ topic, ∃ h : topic.topic = cStr name,
      rdKafkaTopicNew (cStr name) answer = some topic ∧
        m.addTopic name answer = ⟨m.insert name topic h, some topic, false, some topic⟩) := by
  cases hlookup : m.topics.lookup name with
  | some topic =>
    have hmem : name ∈ m.topics := AList.lookup_isSome.1 (by rw [hlookup]; rfl)
    exact Or.inl ⟨hmem, by simp only [addTopic, hlookup]⟩
  | none =>
    have hmem : name ∉ m.topics := AList.lookup_eq_none.1 hlookup
    refine Or.inr ?_
    cases answer with
    | none => exact Or.inl ⟨hmem, rfl, by simp only [addTopic, hlookup]; rfl⟩
    | some address =>
      exact Or.inr ⟨hmem, ⟨address, cStr name⟩, rfl, rfl, by simp only [addTopic, hlookup]; rfl⟩

/-- `AddTopic` reports `already_exist` exactly when the name was present. -/
theorem alreadyExist_addTopic : (m.addTopic name answer).alreadyExist = true ↔ name ∈ m.topics := by
  rcases addTopic_cases m name answer with ⟨hmem, h⟩ | ⟨hmem, -, h⟩ | ⟨hmem, topic, _, -, h⟩ <;>
    simp [h, hmem]

/-- The reply of `enif_producer_topic_new` to a call of `AddTopic`. -/
def Added.reply (r : Added) : Term :=
  match r.topic with
  | none => makeError (if r.alreadyExist then "topic already exist" else "failed to create topic")
  | some _ => Term.ok

/-- `GetOrCreateTopic`, when no other call runs. -/
def getOrCreateTopic (m : TopicManager) (name : List UInt8) (answer : Option ℕ) :
    TopicManager × Option TopicHandle :=
  match _ : m.topics.lookup name with
  | some topic => (m, some topic)
  | none =>
    match _ : m.addTopic name answer with
    | ⟨manager, some topic, _, _⟩ => (manager, some topic)
    | ⟨manager, none, true, _⟩ => getOrCreateTopic manager name answer
    | ⟨manager, none, false, _⟩ => (manager, none)
termination_by 0
decreasing_by
  -- `AddTopic` has just found what the lookup did not
  rename_i hlookup _ hadd
  have hmem : name ∈ m.topics := alreadyExist_addTopic.1 (by rw [hadd])
  exact absurd hmem (AList.lookup_eq_none.1 hlookup)

/-- Without other calls `GetOrCreateTopic` does not call itself. -/
theorem getOrCreateTopic_eq (m : TopicManager) (name : List UInt8) (answer : Option ℕ) :
    m.getOrCreateTopic name answer =
      match m.topics.lookup name with
      | some topic => (m, some topic)
      | none => ((m.addTopic name answer).manager, (m.addTopic name answer).topic) := by
  rw [getOrCreateTopic]
  split
  · next topic hlookup => simp only [hlookup]
  · next hlookup =>
    have hmem : name ∉ m.topics := AList.lookup_eq_none.1 hlookup
    simp only [hlookup]
    rcases addTopic_cases m name answer with ⟨hmem', -⟩ | ⟨-, -, hadd⟩ | ⟨-, topic, _, -, hadd⟩
    · exact absurd hmem' hmem
    · split <;> simp_all
    · split <;> simp_all

/-- The handle is one for the topic. -/
theorem topic_of_getOrCreateTopic {manager : TopicManager} {topic : TopicHandle}
    (h : m.getOrCreateTopic name answer = (manager, some topic)) : topic.topic = cStr name := by
  rw [getOrCreateTopic_eq] at h
  cases hlookup : m.topics.lookup name with
  | some found =>
    rw [hlookup] at h
    obtain ⟨rfl, rfl⟩ := Prod.mk.inj h |>.imp id Option.some.inj
    exact m.filed name found hlookup
  | none =>
    rw [hlookup] at h
    rcases addTopic_cases m name answer with
      ⟨-, hadd⟩ | ⟨-, -, hadd⟩ | ⟨-, created, htopic, -, hadd⟩
    · simp [hadd] at h
    · simp [hadd] at h
    · simp only [hadd, Prod.mk.injEq, Option.some.injEq] at h
      exact h.2 ▸ htopic

/-- `Cleanup`, with the handles it destroys. -/
def cleanup (m : TopicManager) : TopicManager × List TopicHandle :=
  (empty, m.topics.entries.map fun e => e.2)

end TopicManager

end Exrdkafka.Nif
