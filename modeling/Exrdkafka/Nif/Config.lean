import Exrdkafka.Config
import Exrdkafka.Foundations.Settings
import Exrdkafka.Nif.Utils

/-!
# Applying a configuration

`exrdkafka_config.cc` sets the defaults and then the entries of the converted configuration, one
after the other. `rd_kafka_conf_set` and `rd_kafka_topic_conf_set` are parameters: they take a name
and a value as C strings and return the changed configuration or an error text.

The consumer relies on three options that the defaults set and no known key can name
(`pinned_of_parse`).
-/

namespace Exrdkafka.Nif

open Term Config Settings

/-- `make_bad_options` -/
def makeBadOptions (t : Term) : Term := Term.error (.tuple [.atom "options", t])

/-! ## Setting options -/

/-- A function that sets an option of a configuration. -/
abbrev ConfSet (κ : Type*) := κ → List UInt8 → List UInt8 → Except String κ

variable {κ τ : Type*}

/-- One entry of a configuration list. -/
def parseEntry (set : ConfSet κ) (head : Term) (conf : κ) : Except Term κ :=
  match head with
  | .tuple [k, v] =>
    match getString k, getString v with
    | some key, some value =>
      match set conf (cStr key) (cStr value) with
      | .ok conf => .ok conf
      | .error errstr => .error (makeError errstr)
    | _, _ => .error (makeBadOptions head)
  | _ => .error (makeBadOptions head)

/-- The loop of `parse_config`. -/
def parseCells (set : ConfSet κ) : Term → κ → Except Term κ
  | .cons head list, conf =>
    match parseEntry set head conf with
    | .ok conf => parseCells set list conf
    | .error e => .error e
  -- `enif_get_list_cell` fails at the end of the list, also of an improper one
  | _, conf => .ok conf

/-- `parse_config` -/
def parseConfig (set : ConfSet κ) (list : Term) (conf : κ) : Except Term κ :=
  match list with
  | .nil | .cons _ _ => parseCells set list conf
  | _ => .error (makeBadOptions list)

/-- Setting options whose names and values are string constants. -/
def setStrings (set : ConfSet κ) (options : List (String × String)) (conf : κ) : Except String κ :=
  applyAll set (options.map fun o => (utf8 o.1, utf8 o.2)) conf

/-- The options set by `appy_kafka_default_config`; `sigio` is the number of the signal on platforms
that have it. -/
def kafkaDefaultConfig (sigio : Option ℕ) : List (String × String) :=
  [("enable.auto.commit", "true"), ("enable.auto.offset.store", "false"),
    ("enable.partition.eof", "false"), ("allow.auto.create.topics", "true")] ++
    (sigio.map fun n => ("internal.termination.signal", toString n)).toList

/-- The options set by `appy_topic_default_config`. -/
def topicDefaultConfig : List (String × String) := [("message.timeout.ms", "0")]

/-- `parse_kafka_config` -/
def parseKafkaConfig (set : ConfSet κ) (sigio : Option ℕ) (list : Term) (conf : κ) :
    Except Term κ :=
  match setStrings set (kafkaDefaultConfig sigio) conf with
  | .error _ => .error (makeError "failed to apply default kafka config")
  | .ok conf => parseConfig set list conf

/-- `parse_topic_config` -/
def parseTopicConfig (set : ConfSet κ) (list : Term) (conf : κ) : Except Term κ :=
  match setStrings set topicDefaultConfig conf with
  | .error _ => .error (makeError "failed to apply default topic config")
  | .ok conf => parseConfig set list conf

/-! ## What a configuration names -/

/-- The option an entry names. -/
def entryName : Term → Option (List UInt8)
  | .tuple [k, _] => (getString k).map cStr
  | _ => none

/-- The change an entry makes: the option it names, and the value. -/
def change : Term → List UInt8 × List UInt8
  | .tuple [k, v] => (cStr ((getString k).getD []), cStr ((getString v).getD []))
  | _ => ([], [])

theorem parseEntry_ok {set : ConfSet κ} {e : Term} {conf conf' : κ}
    (h : parseEntry set e conf = .ok conf') :
    entryName e = some (change e).1 ∧ set conf (change e).1 (change e).2 = .ok conf' := by
  unfold parseEntry at h
  split at h
  · rename_i k v
    split at h
    · rename_i key value hk hv
      split at h
      · rename_i c hc
        obtain rfl := Except.ok.inj h
        have hchange : change (.tuple [k, v]) = (cStr key, cStr value) := by
          simp [change, hk, hv]
        rw [hchange]
        exact ⟨by simp [entryName, hk], hc⟩
      · cases h
    · cases h
  · cases h

/-- A parsed list of entries makes the change of each entry, in order. -/
theorem applyAll_of_parseCells {set : ConfSet κ} {entries : List Term} {conf conf' : κ}
    (h : parseCells set (ofList entries) conf = .ok conf') :
    (∀ e ∈ entries, entryName e = some (change e).1) ∧
      applyAll set (entries.map change) conf = .ok conf' := by
  induction entries generalizing conf with
  | nil =>
    obtain rfl := Except.ok.inj h
    exact ⟨by simp, rfl⟩
  | cons e entries ih =>
    rw [ofList, parseCells] at h
    split at h
    · rename_i c hc
      obtain ⟨hname, hset⟩ := parseEntry_ok hc
      obtain ⟨hnames, happ⟩ := ih h
      refine ⟨List.forall_mem_cons.2 ⟨hname, hnames⟩, ?_⟩
      simp only [List.map_cons, applyAll, hset, happ]
    · cases h

theorem applyAll_of_parseConfig {set : ConfSet κ} {entries : List Term} {conf conf' : κ}
    (h : parseConfig set (ofList entries) conf = .ok conf') :
    (∀ e ∈ entries, entryName e = some (change e).1) ∧
      applyAll set (entries.map change) conf = .ok conf' := by
  apply applyAll_of_parseCells
  cases entries <;> exact h

/-- An option that no entry names keeps its value. -/
theorem parseConfig_get {set : ConfSet κ} {β : Type*} {get : κ → List UInt8 → β}
    (hset : SetsOnly set get) {name : List UInt8} {entries : List Term} {conf conf' : κ}
    (hname : ∀ e ∈ entries, entryName e ≠ some name)
    (h : parseConfig set (ofList entries) conf = .ok conf') : get conf' name = get conf name := by
  obtain ⟨hnames, happ⟩ := applyAll_of_parseConfig h
  refine applyAll_get hset (fun hmem => ?_) happ
  rw [List.map_map] at hmem
  obtain ⟨e, he, rfl⟩ := List.mem_map.1 hmem
  exact hname e he (hnames e he)

/-! ## The pinned options -/

/-- The options the consumer relies on, with their values. -/
def pinned : List (String × String) :=
  [("enable.auto.commit", "true"), ("enable.auto.offset.store", "false"),
    ("enable.partition.eof", "false")]

/-- The names no entry may have. -/
def protectedNames : List String := "group.id" :: pinned.map Prod.fst

theorem getString_toCharlist (s : List UInt8) : getString (toCharlist s) = some s := by
  have hiolist : iolist (toCharlist s) = some s := by
    induction s with
    | nil => rfl
    | cons b s ih =>
      have hb : b.toNat < 256 := b.toNat_lt
      have hlist : toCharlist (b :: s) = .cons (.int b.toNat) (toCharlist s) := rfl
      rw [hlist, iolist, if_pos (by omega), ih]
      simp
  cases s <;> exact hiolist

/-- No known key is turned into a protected name. -/
theorem kafkaKey_unprotected : ∀ key ∈ kafkaConfigKeys ++ topicConfigKeys,
    ∀ name ∈ protectedNames, cStr (kafkaKey key) ≠ utf8 name := by
  decide +kernel

theorem entryName_ne_protected {keys : List String} {e : Term} (he : EntryOf keys e)
    (hkeys : ∀ key ∈ keys, key ∈ kafkaConfigKeys ++ topicConfigKeys) {name : String}
    (hname : name ∈ protectedNames) : entryName e ≠ some (utf8 name) := by
  obtain ⟨key, hkey, b, rfl⟩ := he
  have hne := kafkaKey_unprotected key (hkeys key hkey) name hname
  simpa [entryName, getString_toCharlist] using hne

/-- Setting string constants gives each the value set, when the names are distinct. -/
theorem setStrings_get {set : ConfSet κ} {get : κ → List UInt8 → Option (List UInt8)}
    (hset : SetsOnly set get) {options : List (String × String)}
    (hnames : (options.map fun o => utf8 o.1).Nodup) {o : String × String} (ho : o ∈ options)
    (hback : ∀ c c', set c (utf8 o.1) (utf8 o.2) = .ok c' → get c' (utf8 o.1) = some (utf8 o.2))
    {conf conf' : κ} (h : setStrings set options conf = .ok conf') :
    get conf' (utf8 o.1) = some (utf8 o.2) := by
  have hmem : (utf8 o.1, utf8 o.2) ∈ options.map fun o => (utf8 o.1, utf8 o.2) :=
    List.mem_map.2 ⟨o, ho, rfl⟩
  refine applyAll_get_of_mem hset hback ?_ hmem h
  rw [List.map_map]
  exact hnames

theorem kafkaDefaultConfig_names (sigio : Option ℕ) :
    ((kafkaDefaultConfig sigio).map fun o => utf8 o.1).Nodup := by
  cases sigio with
  | none => decide
  | some n =>
    show (["enable.auto.commit", "enable.auto.offset.store", "enable.partition.eof",
      "allow.auto.create.topics", "internal.termination.signal"].map utf8).Nodup
    decide

theorem pinned_subset (sigio : Option ℕ) : ∀ o ∈ pinned, o ∈ kafkaDefaultConfig sigio := by
  intro o ho
  refine List.mem_append_left _ ?_
  revert o
  decide

theorem pinned_protected : ∀ o ∈ pinned, o.1 ∈ protectedNames := fun _ ho =>
  List.mem_cons_of_mem _ (List.mem_map_of_mem ho)

/-- A client configuration that does not name a pinned option leaves it at its default. -/
theorem pinned_of_parseKafkaConfig {set : ConfSet κ} {get : κ → List UInt8 → Option (List UInt8)}
    (hset : SetsOnly set get) {o : String × String} (ho : o ∈ pinned)
    (hback : ∀ c c', set c (utf8 o.1) (utf8 o.2) = .ok c' → get c' (utf8 o.1) = some (utf8 o.2))
    {rdk : List Term} (hrdk : ∀ e ∈ rdk, entryName e ≠ some (utf8 o.1)) {sigio : Option ℕ}
    {c c' : κ} (h : parseKafkaConfig set sigio (ofList rdk) c = .ok c') :
    get c' (utf8 o.1) = some (utf8 o.2) := by
  unfold parseKafkaConfig at h
  split at h
  · cases h
  · rename_i d hd
    have hdefault : get d (utf8 o.1) = some (utf8 o.2) :=
      setStrings_get hset (kafkaDefaultConfig_names sigio) (pinned_subset sigio o ho) hback hd
    exact (parseConfig_get hset hrdk h).trans hdefault

theorem pinned_notMem_topicDefaultConfig : ∀ o ∈ pinned,
    utf8 o.1 ∉ (topicDefaultConfig.map fun o => (utf8 o.1, utf8 o.2)).map Prod.fst := by
  decide

/-- A topic configuration that does not name a pinned option does not touch it. -/
theorem untouched_of_parseTopicConfig {topicSet : ConfSet τ}
    {topicGet : τ → List UInt8 → Option (List UInt8)} (htopicSet : SetsOnly topicSet topicGet)
    {o : String × String} (ho : o ∈ pinned) {topicRdk : List Term}
    (htopicRdk : ∀ e ∈ topicRdk, entryName e ≠ some (utf8 o.1)) {t t' : τ}
    (h : parseTopicConfig topicSet (ofList topicRdk) t = .ok t') :
    topicGet t' (utf8 o.1) = topicGet t (utf8 o.1) := by
  unfold parseTopicConfig at h
  split at h
  · cases h
  · rename_i d hd
    have hdefault : topicGet d (utf8 o.1) = topicGet t (utf8 o.1) :=
      applyAll_get htopicSet (pinned_notMem_topicDefaultConfig o ho) hd
    exact (parseConfig_get htopicSet htopicRdk h).trans hdefault

/-- **The pinned options survive.** Let the functions that set an option change only that option,
and let a pinned option read as it was set. For every configuration that is converted and applied,
the pinned options have their values, the topic configuration does not touch them, and no converted
entry names the group. -/
theorem pinned_of_parse {set : ConfSet κ} {get : κ → List UInt8 → Option (List UInt8)}
    (hset : SetsOnly set get)
    (hback : ∀ o ∈ pinned, ∀ c c', set c (utf8 o.1) (utf8 o.2) = .ok c' →
      get c' (utf8 o.1) = some (utf8 o.2))
    {topicSet : ConfSet τ} {topicGet : τ → List UInt8 → Option (List UInt8)}
    (htopicSet : SetsOnly topicSet topicGet)
    {conf : Term} {own rdk : List Term} (hconf : convertKafkaConfig conf = .ok own rdk)
    {topicConf : Term} {topicOwn topicRdk : List Term}
    (htopicConf : convertTopicConfig topicConf = .ok topicOwn topicRdk)
    (sigio : Option ℕ) {c c' : κ} (hparse : parseKafkaConfig set sigio (ofList rdk) c = .ok c')
    {t t' : τ} (htopicParse : parseTopicConfig topicSet (ofList topicRdk) t = .ok t') :
    (∀ o ∈ pinned, get c' (utf8 o.1) = some (utf8 o.2)) ∧
      (∀ o ∈ pinned, topicGet t' (utf8 o.1) = topicGet t (utf8 o.1)) ∧
      ∀ e ∈ rdk ++ topicRdk, entryName e ≠ some (utf8 "group.id") := by
  have hrdk : ∀ e ∈ rdk, ∀ name ∈ protectedNames, entryName e ≠ some (utf8 name) :=
    fun e he name hname => entryName_ne_protected (entryOf_filterConfig (by simp) hconf e he)
      (fun key hkey => List.mem_append_left _ hkey) hname
  have htopicRdk : ∀ e ∈ topicRdk, ∀ name ∈ protectedNames, entryName e ≠ some (utf8 name) :=
    fun e he name hname => entryName_ne_protected (entryOf_filterConfig (by simp) htopicConf e he)
      (fun key hkey => List.mem_append_right _ hkey) hname
  refine ⟨fun o ho => ?_, fun o ho => ?_, fun e he => ?_⟩
  · exact pinned_of_parseKafkaConfig hset ho (hback o ho)
      (fun e he => hrdk e he _ (pinned_protected o ho)) hparse
  · exact untouched_of_parseTopicConfig htopicSet ho
      (fun e he => htopicRdk e he _ (pinned_protected o ho)) htopicParse
  · rcases List.mem_append.1 he with he | he
    · exact hrdk e he _ List.mem_cons_self
    · exact htopicRdk e he _ List.mem_cons_self

/-- A configuration as a function from names to values, and setting an option of it. -/
def sampleSet : ConfSet (List UInt8 → Option (List UInt8)) :=
  fun conf name value => .ok (Function.update conf name (some value))

theorem sampleSet_setsOnly : SetsOnly sampleSet fun conf name => conf name := by
  intro s n v t h m hm
  obtain rfl := Except.ok.inj h
  exact Function.update_of_ne hm _ _

/-- `[client_id: "c", allow_auto_create_topics: false]` -/
def sampleConfig : Term :=
  ofList [.tuple [.atom "client_id", .binary [99]],
    .tuple [.atom "allow_auto_create_topics", .atom "false"]]

/-- The configuration applied with the topic configuration `[auto_offset_reset: :earliest]`. -/
theorem pinned_of_parse_sample : ∃ rdk topicRdk c t,
    convertKafkaConfig sampleConfig = .ok [] rdk ∧
    parseKafkaConfig sampleSet none (ofList rdk) (fun _ => none) = .ok c ∧
    parseTopicConfig sampleSet (ofList topicRdk) (fun _ => none) = .ok t ∧
    ((∀ o ∈ pinned, c (utf8 o.1) = some (utf8 o.2)) ∧ (∀ o ∈ pinned, t (utf8 o.1) = none) ∧
      ∀ e ∈ rdk ++ topicRdk, entryName e ≠ some (utf8 "group.id")) := by
  let rdk : List Term := [
    .tuple [toCharlist (kafkaKey "allow_auto_create_topics"), .binary (utf8 "false")],
    .tuple [toCharlist (kafkaKey "client_id"), .binary [99]]]
  let topicRdk : List Term := [
    .tuple [toCharlist (kafkaKey "auto_offset_reset"), .binary (utf8 "earliest")]]
  have htopic : convertTopicConfig
      (ofList [.tuple [.atom "auto_offset_reset", .atom "earliest"]]) = .ok [] topicRdk := rfl
  refine ⟨rdk, topicRdk, _, _, rfl, rfl, rfl, ?_⟩
  refine pinned_of_parse sampleSet_setsOnly (fun o _ c c' h => ?_) sampleSet_setsOnly
    (show convertKafkaConfig sampleConfig = .ok [] rdk from rfl) htopic none rfl rfl
  obtain rfl := Except.ok.inj h
  exact Function.update_self _ _ _

end Exrdkafka.Nif
