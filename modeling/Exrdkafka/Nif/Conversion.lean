import Exrdkafka.Nif.DuplicateOptions

/-!
# A configuration on its way to librdkafka

The options of a client are converted by `Exrdkafka.Config`, and `exrdkafka_config.cc` applies what
the conversion leaves, after its defaults. `Asked` is what a list of options asks for, stated apart
from both: the name and the whole text of each option that is passed on.

* `applied_iff_of_converted`: a list that is converted is applied as it asks, the last option first,
  with the text of the first refusal for an error and each option reading as its first occurrence
  says, exactly when no text has a zero byte. The native side takes a text as a C string, which ends
  there.
-/

namespace Exrdkafka.Nif

open Term Config Settings

variable {κ τ : Type*}

/-! ## What is asked for -/

/-- An option asks for its value, under its name. -/
def Asks (f : Family) (e : Term) (s : List UInt8 × List UInt8) : Prop :=
  ∃ key ∈ f.keys, ∃ v, Text v s.2 ∧ e = .tuple [.atom key, v] ∧ s.1 = utf8 (dotted key)

open Classical in
/-- What a list of options asks for: nothing for the options of the library itself. -/
def Asked (f : Family) (conf : List Term) (asked : List (List UInt8 × List UInt8)) : Prop :=
  List.Forall₂ (Asks f) (conf.filter fun e => ¬ f.Own e) asked

/-- A setting as the native side makes it. -/
def cut (s : List UInt8 × List UInt8) : List UInt8 × List UInt8 := (s.1, cStr s.2)

/-- A text that is a C string. -/
def NulFree (asked : List (List UInt8 × List UInt8)) : Prop := ∀ s ∈ asked, 0 ∉ s.2

/-- A converted entry is set as the option asks, cut. -/
theorem parseEntry_made {f : Family} (hkeys : f.keys ⊆ kafkaConfigKeys ++ topicConfigKeys)
    {e entry : Term} (h : f.Made e entry) :
    ∃ s, Asks f e s ∧ ∀ (κ : Type) (set : ConfSet κ) (c : κ),
      parseEntry set entry c = (set c (cut s).1 (cut s).2).mapError makeError := by
  obtain ⟨key, hkey, v, b, hb, rfl, rfl⟩ := h
  have hname := (kafkaKey_eq (hkeys hkey)).1
  refine ⟨(kafkaKey key, b), ⟨key, hkey, v, ((toBinary_eq_some_iff v b).1 hb).1, rfl, hname⟩,
    fun κ set c => ?_⟩
  have hvalue : getString (.binary b) = some b := rfl
  simp only [parseEntry, getString_toCharlist, hvalue, cStr_kafkaKey key (hkeys hkey), cut]
  cases set c (kafkaKey key) (cStr b) <;> rfl

/-- Converted entries are set as the options ask, in order. -/
theorem parseCells_made {f : Family} (hkeys : f.keys ⊆ kafkaConfigKeys ++ topicConfigKeys)
    {es entries : List Term} (h : List.Forall₂ f.Made es entries) :
    ∃ asked, List.Forall₂ (Asks f) es asked ∧ ∀ (κ : Type) (set : ConfSet κ) (c : κ),
      parseCells set (ofList entries) c =
        (applyAll set (asked.map cut) c).mapError makeError := by
  induction h with
  | nil => exact ⟨[], .nil, fun _ _ _ => rfl⟩
  | cons he _ ih =>
    obtain ⟨s, hs, hentry⟩ := parseEntry_made hkeys he
    obtain ⟨asked, hasked, hcells⟩ := ih
    refine ⟨s :: asked, .cons hs hasked, fun κ set c => ?_⟩
    rw [ofList, parseCells, hentry, List.map_cons, applyAll]
    cases set c (cut s).1 (cut s).2 with
    | error errstr => rfl
    | ok c' => exact hcells κ set c'

/-- What a conversion leaves is set as the list asks, the last option first. -/
theorem parseConfig_converted {f : Family} (hkeys : f.keys ⊆ kafkaConfigKeys ++ topicConfigKeys)
    {isOwn : Term → Term → Except Caught Bool} {toRdk : Term → Term → Except Caught Term}
    (h : Implements f (convertEntry isOwn toRdk)) {conf own rdk : List Term}
    (hok : filterConfig isOwn toRdk (ofList conf) [] [] = .ok own rdk) :
    ∃ asked, Asked f conf asked ∧ ∀ (κ : Type) (set : ConfSet κ) (c : κ),
      parseConfig set (ofList rdk) c =
        (applyAll set (asked.map cut).reverse c).mapError makeError := by
  classical
  obtain ⟨-, -, hrdk⟩ := h.spec_of_ok hok
  obtain ⟨asked, hasked, hcells⟩ := parseCells_made hkeys hrdk
  have hreverse := List.rel_reverse hasked
  rw [List.reverse_reverse] at hreverse
  refine ⟨asked.reverse, hreverse, fun κ set c => ?_⟩
  rw [List.map_reverse, List.reverse_reverse, ← hcells]
  cases rdk <;> rfl

/-- A list asks for one list of settings. -/
theorem Asked.unique {f : Family} {conf : List Term} {asked asked' : List (List UInt8 × List UInt8)}
    (h : Asked f conf asked) (h' : Asked f conf asked') : asked = asked' := by
  rw [Asked] at h h'
  generalize conf.filter _ = es at h h'
  induction h generalizing asked' with
  | nil =>
    cases h'
    rfl
  | cons hs _ ih =>
    cases h' with
    | cons hs' hrest =>
      obtain ⟨key, -, v, htext, rfl, hname⟩ := hs
      obtain ⟨key', -, v', htext', heq, hname'⟩ := hs'
      cases heq
      rw [ih hrest, Prod.ext (hname.trans hname'.symm) (htext.unique htext')]

/-! ## What is applied -/

/-- The options set by default, as they are set. -/
def strings (options : List (String × String)) : List (List UInt8 × List UInt8) :=
  options.map fun o => (utf8 o.1, utf8 o.2)

variable {ω β : Type*} [DecidableEq ω]

/-- **What a list of options comes to.** `r` is the configuration that `c` becomes, with these
defaults, or an error. An option may have several names. -/
structure Applies (set : ConfSet κ) (named : List UInt8 → ω) (get : κ → ω → β)
    (reads : ω → List UInt8 → β) (defaults : List (String × String))
    (asked : List (List UInt8 × List UInt8)) (c : κ) (r : Except Term κ) : Prop where
  /-- The settings are made after the defaults, the last first, and an error is the text of the
  first that is refused. -/
  result : ∀ c', setStrings set defaults c = .ok c' →
    r = (applyAll set asked.reverse c').mapError makeError
  /-- If the defaults cannot be set, nothing is. -/
  failed : ∀ e, setStrings set defaults c = .error e → ∃ text, r = .error (makeError text)
  /-- An option reads as the first setting of it, or else as its last default, or as it was. -/
  value : ∀ c', r = .ok c' → ∀ o, get c' o =
    ((asked ++ (strings defaults).reverse).find? fun s => named s.1 = o).elim (get c o) fun s =>
      reads o s.2

/-- A parse that makes its settings after the defaults. -/
theorem applies_of_result {set : ConfSet κ} {named : List UInt8 → ω} {get : κ → ω → β}
    {reads : ω → List UInt8 → β} (hset : SetsNamed set named get reads)
    {defaults : List (String × String)} {asked : List (List UInt8 × List UInt8)} {c : κ}
    {r : Except Term κ}
    (hresult : ∀ c', setStrings set defaults c = .ok c' →
      r = (applyAll set asked.reverse c').mapError makeError)
    (hfailed : ∀ e, setStrings set defaults c = .error e → ∃ text, r = .error (makeError text)) :
    Applies set named get reads defaults asked c r := by
  refine ⟨hresult, hfailed, fun c' hc' o => ?_⟩
  cases hdefaults : setStrings set defaults c with
  | error e =>
    obtain ⟨text, htext⟩ := hfailed e hdefaults
    rw [htext] at hc'
    cases hc'
  | ok d =>
    have happ : applyAll set asked.reverse d = .ok c' := by
      rw [hresult d hdefaults] at hc'
      cases hasked : applyAll set asked.reverse d with
      | error e =>
        rw [hasked] at hc'
        cases hc'
      | ok d' =>
        rw [hasked] at hc'
        exact congrArg Except.ok (Except.ok.inj hc')
    -- one list of changes, read from its end
    have hvalue := hset.value (applyAll_append hdefaults happ) o
    rwa [List.reverse_append, List.reverse_reverse] at hvalue

/-- A parse applies what is asked, whatever the library. Setting an option, under any of its names,
changes only that option, which then reads as it was set; the library may refuse any setting. -/
def AppliesAlways (defaults : List (String × String)) (asked : List (List UInt8 × List UInt8))
    (parse : ∀ κ : Type, ConfSet κ → κ → Except Term κ) : Prop :=
  ∀ (κ ω β : Type) (_ : DecidableEq ω) (set : ConfSet κ) (named : List UInt8 → ω) (get : κ → ω → β)
    (reads : ω → List UInt8 → β), SetsNamed set named get reads →
    ∀ c, Applies set named get reads defaults asked c (parse κ set c)

theorem map_cut_iff (asked : List (List UInt8 × List UInt8)) :
    asked.map cut = asked ↔ NulFree asked := by
  have hid : asked.map cut = asked ↔ asked.map cut = asked.map id := by rw [List.map_id]
  rw [hid, List.map_inj_left]
  exact forall₂_congr fun s _ => by simp [cut, Prod.ext_iff, ← cStr_eq_self_iff]

/-- A parse that makes the settings cut applies what is asked when cutting changes nothing. -/
theorem appliesAlways_iff {defaults : List (String × String)}
    {asked : List (List UInt8 × List UInt8)} {parse : ∀ κ : Type, ConfSet κ → κ → Except Term κ}
    (hresult : ∀ (κ : Type) (set : ConfSet κ) (c c' : κ), setStrings set defaults c = .ok c' →
      parse κ set c = (applyAll set (asked.map cut).reverse c').mapError makeError)
    (hfailed : ∀ (κ : Type) (set : ConfSet κ) (c : κ) (e : String),
      setStrings set defaults c = .error e → ∃ text, parse κ set c = .error (makeError text)) :
    AppliesAlways defaults asked parse ↔ NulFree asked := by
  refine ⟨fun h => ?_, fun h κ ω β _ set named get reads hset c => ?_⟩
  · -- a library that keeps its settings tells them apart
    have happlies := h (List (List UInt8 × List UInt8)) Unit Unit inferInstance record
      (fun _ => ()) (fun _ _ => ()) (fun _ _ => ())
      ⟨fun _ _ _ _ _ => rfl, fun _ _ _ _ _ _ _ => rfl⟩ []
    have hdefaults : setStrings record defaults [] = .ok (strings defaults) :=
      applyAll_record _ []
    have hasked := happlies.result _ hdefaults
    rw [hresult _ _ _ _ hdefaults, applyAll_record, applyAll_record] at hasked
    have hsame := List.append_cancel_left (Except.ok.inj hasked)
    exact (map_cut_iff asked).1 (List.reverse_inj.1 hsame)
  · refine applies_of_result hset (fun c' hc' => ?_) fun e he => hfailed κ set c e he
    rw [hresult κ set c c' hc', (map_cut_iff asked).2 h]

/-- **The configuration of a client.** A list of options of a client, and one of its topics, that
are converted ask for settings, and the native side applies what each asks for exactly when none of
its texts has a zero byte. -/
theorem applied_iff_of_converted {conf own rdk topicConf topicOwn topicRdk : List Term}
    (hconf : convertKafkaConfig (ofList conf) = .ok own rdk)
    (htopicConf : convertTopicConfig (ofList topicConf) = .ok topicOwn topicRdk)
    (sigio : Option ℕ) :
    ∃ asked topicAsked, Asked kafkaFamily conf asked ∧ Asked topicFamily topicConf topicAsked ∧
      (AppliesAlways (kafkaDefaultConfig sigio) asked
        (fun _ set => parseKafkaConfig set sigio (ofList rdk)) ↔ NulFree asked) ∧
      (AppliesAlways topicDefaultConfig topicAsked
        (fun _ set => parseTopicConfig set (ofList topicRdk)) ↔ NulFree topicAsked) := by
  obtain ⟨asked, hasked, hparse⟩ := parseConfig_converted (f := kafkaFamily)
    (List.subset_append_left ..) implements_kafka hconf
  obtain ⟨topicAsked, htopicAsked, htopicParse⟩ := parseConfig_converted (f := topicFamily)
    (List.subset_append_right ..) implements_topic htopicConf
  refine ⟨asked, topicAsked, hasked, htopicAsked,
    appliesAlways_iff (fun κ set c c' hc' => ?_) fun κ set c e he => ?_,
    appliesAlways_iff (fun κ set c c' hc' => ?_) fun κ set c e he => ?_⟩
  · rw [parseKafkaConfig, hc']
    exact hparse κ set c'
  · exact ⟨"failed to apply default kafka config", by rw [parseKafkaConfig, he]⟩
  · rw [parseTopicConfig, hc']
    exact htopicParse κ set c'
  · exact ⟨"failed to apply default topic config", by rw [parseTopicConfig, he]⟩

/-- An option given twice, with the topic configuration `[message_timeout_ms: 5]` that replaces a
default. -/
theorem applied_iff_of_converted_sample : ∃ rdk topicRdk,
    convertKafkaConfig (ofList repeatedClientId) = .ok [] rdk ∧
    convertTopicConfig (ofList [.tuple [.atom "message_timeout_ms", .int 5]]) = .ok [] topicRdk ∧
    ∃ asked topicAsked, Asked kafkaFamily repeatedClientId asked ∧
      Asked topicFamily [.tuple [.atom "message_timeout_ms", .int 5]] topicAsked ∧
      (AppliesAlways (kafkaDefaultConfig none) asked
        (fun _ set => parseKafkaConfig set none (ofList rdk)) ↔ NulFree asked) ∧
      (AppliesAlways topicDefaultConfig topicAsked
        (fun _ set => parseTopicConfig set (ofList topicRdk)) ↔ NulFree topicAsked) := by
  let rdk : List Term := [.tuple [toCharlist (kafkaKey "client_id"), .binary [98]],
    .tuple [toCharlist (kafkaKey "client_id"), .binary [97]]]
  let topicRdk : List Term := [
    .tuple [toCharlist (kafkaKey "message_timeout_ms"), .binary (utf8 "5")]]
  have hconf : convertKafkaConfig (ofList repeatedClientId) = .ok [] rdk := rfl
  have htopicConf : convertTopicConfig
      (ofList [.tuple [.atom "message_timeout_ms", .int 5]]) = .ok [] topicRdk := rfl
  exact ⟨rdk, topicRdk, hconf, htopicConf, applied_iff_of_converted hconf htopicConf none⟩

end Exrdkafka.Nif
