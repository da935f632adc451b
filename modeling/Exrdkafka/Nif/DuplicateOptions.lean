import Exrdkafka.ClientManager
import Exrdkafka.Config.Exact
import Exrdkafka.Nif.Config

/-!
# Options given more than once

A converted configuration has both its halves in reverse order. The NIF applies the half for
librdkafka entry by entry, so the last entry of that half, the first of the input, stands. The
library's own options are read with a lookup that takes the first match, which is the last entry of
the input.

`FirstWins` says that the first occurrence of every option counts. It holds exactly when no option
of the library itself is given again with another value (`firstWins_iff`).
-/

namespace Exrdkafka.Nif

open Term Config Settings ClientManager

/-! ## Occurrences of an option -/

/-- The value of an entry with this key. -/
def valueAt (key : String) : Term → Option Term
  | .tuple [k, v] => if k = .atom key then some v else none
  | _ => none

/-- The value of the first occurrence of an option. -/
def firstValue (key : String) (conf : List Term) : Option Term := conf.findSome? (valueAt key)

/-- The value of the last occurrence of an option. -/
def lastValue (key : String) (conf : List Term) : Option Term :=
  conf.reverse.findSome? (valueAt key)

/-- **The first occurrence counts**, for the options passed on to librdkafka and for the library's
own. `reads` is how a configuration shows a value that an option was set to. -/
structure FirstWins {κ β : Type*} (get : κ → List UInt8 → β) (reads : List UInt8 → List UInt8 → β)
    (conf own : List Term) (applied : κ) : Prop where
  /-- The configuration has the first value of each option passed on. -/
  passedOn : ∀ key ∈ kafkaConfigKeys, ∀ v, firstValue key conf = some v →
    ∃ b, Utils.toBinary v = some b ∧ get applied (kafkaKey key) = reads (kafkaKey key) (cStr b)
  /-- `Utils.lookup` finds the first value of each option of the library. -/
  lookup : ∀ key ∈ kafkaFamily.own, ∀ v, firstValue key conf = some v →
    ∀ default, Utils.lookup (.atom key) (pairs own) default = v
  /-- So does `Keyword.get`. -/
  keywordGet : ∀ key ∈ kafkaFamily.own, ∀ v, firstValue key conf = some v →
    ∀ default, Consumer.keywordGet (pairs own) key default = v

theorem valueAt_eq_some {key : String} {e v : Term} (h : valueAt key e = some v) :
    e = .tuple [.atom key, v] := by
  unfold valueAt at h
  split at h
  · split_ifs at h with hk
    rw [hk, Option.some.inj h]
  · cases h

/-- Entries without the option can be left out. -/
theorem findSome_filter {key : String} {p : Term → Bool} {conf : List Term}
    (h : ∀ e ∈ conf, ∀ v, valueAt key e = some v → p e = true) :
    (conf.filter p).findSome? (valueAt key) = conf.findSome? (valueAt key) := by
  induction conf with
  | nil => rfl
  | cons e conf ih =>
    obtain ⟨he, hconf⟩ := List.forall_mem_cons.1 h
    cases hv : valueAt key e with
    | some v =>
      rw [List.filter_cons_of_pos (he v hv), List.findSome?_cons, List.findSome?_cons, hv]
    | none =>
      rw [List.findSome?_cons, hv, ← ih hconf]
      by_cases hp : p e = true
      · rw [List.filter_cons_of_pos hp, List.findSome?_cons, hv]
      · rw [List.filter_cons_of_neg hp]

/-- A lookup finds the first occurrence. -/
theorem lookup_pairs (key : String) (l : List Term) (default : Term) :
    Utils.lookup (.atom key) (pairs l) default = (l.findSome? (valueAt key)).getD default := by
  induction l with
  | nil => rfl
  | cons e l ih =>
    by_cases hpair : ∃ k v, e = .tuple [k, v]
    · obtain ⟨k, v, rfl⟩ := hpair
      have hpairs : pairs (.tuple [k, v] :: l) = (k, v) :: pairs l := rfl
      rw [hpairs, Utils.lookup, List.find?_cons, List.findSome?_cons, valueAt]
      by_cases hk : k = .atom key
      · simp [hk]
      · simp only [hk, decide_false, if_false]
        exact ih
    · have hpairs : pairs (e :: l) = pairs l := by
        apply List.filterMap_cons_none
        split
        · exact absurd ⟨_, _, rfl⟩ hpair
        · rfl
      have hv : valueAt key e = none := by
        rw [valueAt]
        exact fun k v h => hpair ⟨k, v, h⟩
      rw [hpairs, List.findSome?_cons, hv, ih]

/-! ## The two halves -/

theorem own_notMem_keys : ∀ key ∈ kafkaFamily.own, key ∉ kafkaFamily.keys := by decide

open Classical in
/-- The options of the library are read at their last occurrence. -/
theorem own_findSome {conf own rdk : List Term} (h : convertKafkaConfig (ofList conf) = .ok own rdk)
    {key : String} (hkey : key ∈ kafkaFamily.own) :
    own.findSome? (valueAt key) = lastValue key conf := by
  obtain ⟨hall, rfl, -⟩ := implements_kafka.spec_of_ok h
  rw [← List.filter_reverse]
  refine findSome_filter fun e he v hv => ?_
  obtain rfl := valueAt_eq_some hv
  rcases hall _ (List.mem_reverse.1 he) with hown | ⟨key', hkey', v', b, -, heq⟩
  · exact decide_eq_true hown
  · cases heq
    exact absurd hkey' (own_notMem_keys key hkey)

open Classical in
/-- The options that are passed on, in input order. -/
theorem rest_findSome (conf : List Term) {key : String} (hkey : key ∈ kafkaFamily.keys) :
    (conf.filter fun e => ¬ kafkaFamily.Own e).findSome? (valueAt key) = firstValue key conf := by
  refine findSome_filter fun e _ v hv => ?_
  obtain rfl := valueAt_eq_some hv
  refine decide_eq_true ?_
  rintro ⟨key', hkey', v', -, heq⟩
  cases heq
  exact own_notMem_keys key hkey' hkey

theorem kafkaKey_names : (kafkaConfigKeys.map kafkaKey).Nodup := by
  decide +kernel

theorem cStr_kafkaKey : ∀ key ∈ kafkaConfigKeys ++ topicConfigKeys,
    cStr (kafkaKey key) = kafkaKey key := by
  decide +kernel

/-- Different options have different names. -/
theorem kafkaKey_inj {key key' : String} (hkey : key ∈ kafkaConfigKeys)
    (hkey' : key' ∈ kafkaConfigKeys) (h : kafkaKey key = kafkaKey key') : key = key' :=
  List.inj_on_of_nodup_map kafkaKey_names hkey hkey' h

theorem change_converted {key : String} (hkey : key ∈ kafkaConfigKeys) (b : List UInt8) :
    change (.tuple [toCharlist (kafkaKey key), .binary b]) = (kafkaKey key, cStr b) := by
  rw [change, getString_toCharlist, Option.getD_some,
    cStr_kafkaKey key (List.mem_append_left _ hkey)]
  rfl

/-- The first change of an option is that of its first occurrence. -/
theorem find_change {es entries : List Term} (h : List.Forall₂ kafkaFamily.Made es entries)
    {key : String} (hkey : key ∈ kafkaConfigKeys) {v : Term}
    (hv : es.findSome? (valueAt key) = some v) : ∃ b, Utils.toBinary v = some b ∧
      (entries.map change).find? (fun c => c.1 = kafkaKey key) = some (kafkaKey key, cStr b) := by
  induction h with
  | nil => cases hv
  | cons he _ ih =>
    obtain ⟨key', hkey', v', b, hb, rfl, rfl⟩ := he
    rw [List.findSome?_cons, valueAt] at hv
    rw [List.map_cons, change_converted hkey', List.find?_cons]
    by_cases hk : key' = key
    · subst hk
      simp only [if_true, Option.some.injEq] at hv
      subst hv
      exact ⟨b, hb, by simp⟩
    · have hne : kafkaKey key' ≠ kafkaKey key := fun h => hk (kafkaKey_inj hkey' hkey h)
      simp only [Term.atom.injEq, hk, if_false] at hv
      simp only [hne, decide_false]
      exact ih hv

/-- An option that is passed on is applied with its first value. -/
theorem passedOn_first {κ β : Type*} {set : ConfSet κ} {get : κ → List UInt8 → β}
    {reads : List UInt8 → List UInt8 → β} (hset : SetsOnly set get)
    (hback : ∀ c name value c', set c name value = .ok c' → get c' name = reads name value)
    {conf own rdk : List Term} (hconf : convertKafkaConfig (ofList conf) = .ok own rdk) {c c' : κ}
    (hparse : parseConfig set (ofList rdk) c = .ok c') {key : String}
    (hkey : key ∈ kafkaConfigKeys) {v : Term} (hv : firstValue key conf = some v) :
    ∃ b, Utils.toBinary v = some b ∧ get c' (kafkaKey key) = reads (kafkaKey key) (cStr b) := by
  obtain ⟨-, -, hrdk⟩ := implements_kafka.spec_of_ok hconf
  have hinput := List.rel_reverse hrdk
  rw [List.reverse_reverse] at hinput
  obtain ⟨b, hb, hfind⟩ := find_change hinput hkey ((rest_findSome conf hkey).trans hv)
  rw [List.map_reverse] at hfind
  exact ⟨b, hb, applyAll_get_last hset hback (applyAll_of_parseConfig hparse).2 hfind⟩

/-- **Options given more than once.** Let setting an option change only that option, which then
reads as it was set. For every configuration that is converted and applied, the first occurrence of
every option counts exactly when the first and the last occurrence of each of the library's own
options have the same value. -/
theorem firstWins_iff {κ β : Type*} {set : ConfSet κ} {get : κ → List UInt8 → β}
    {reads : List UInt8 → List UInt8 → β} (hset : SetsOnly set get)
    (hback : ∀ c name value c', set c name value = .ok c' → get c' name = reads name value)
    {conf own rdk : List Term} (hconf : convertKafkaConfig (ofList conf) = .ok own rdk) {c c' : κ}
    (hparse : parseConfig set (ofList rdk) c = .ok c') :
    FirstWins get reads conf own c' ↔
      ∀ key ∈ kafkaFamily.own, firstValue key conf = lastValue key conf := by
  refine ⟨fun h key hkey => ?_, fun h => ?_⟩
  · cases hv : firstValue key conf with
    | none =>
      rw [firstValue, List.findSome?_eq_none_iff] at hv
      symm
      rw [lastValue, List.findSome?_eq_none_iff]
      exact fun e he => hv e (List.mem_reverse.1 he)
    | some v =>
      -- the lookup finds the value whatever its default is
      have hfound := h.lookup key hkey v hv
      simp only [lookup_pairs, own_findSome hconf hkey] at hfound
      cases hlast : lastValue key conf with
      | some w =>
        rw [hlast] at hfound
        exact congrArg some (hfound .nil).symm
      | none =>
        rw [hlast] at hfound
        have hnil : Term.nil = .undefined := (hfound .nil).trans (hfound .undefined).symm
        cases hnil
  · have hlookup : ∀ key ∈ kafkaFamily.own, ∀ v, firstValue key conf = some v →
        ∀ default, Utils.lookup (.atom key) (pairs own) default = v := by
      intro key hkey v hv default
      rw [lookup_pairs, own_findSome hconf hkey, ← h key hkey, hv]
      rfl
    exact ⟨fun key hkey v hv => passedOn_first hset hback hconf hparse hkey hv, hlookup, hlookup⟩

theorem sampleSet_reads (c : List UInt8 → Option (List UInt8)) (name value : List UInt8)
    (c' : List UInt8 → Option (List UInt8)) (h : sampleSet c name value = .ok c') :
    c' name = some value := by
  obtain rfl := Except.ok.inj h
  exact Function.update_self _ _ _

/-- `[queue_buffering_overflow_strategy: :drop_records, client_id: "a",
queue_buffering_overflow_strategy: :block_calling_process, client_id: "b"]` -/
def repeatedOptions : List Term :=
  [.tuple [.atom "queue_buffering_overflow_strategy", .atom "drop_records"],
    .tuple [.atom "client_id", .binary [97]],
    .tuple [.atom "queue_buffering_overflow_strategy", .atom "block_calling_process"],
    .tuple [.atom "client_id", .binary [98]]]

/-- The strategy given last is found. -/
theorem repeatedOptions_last : ∃ own rdk c,
    convertKafkaConfig (ofList repeatedOptions) = .ok own rdk ∧
    parseConfig sampleSet (ofList rdk) (fun _ => none) = .ok c ∧
    ¬ FirstWins (fun c name => c name) (fun _ value => some value) repeatedOptions own c := by
  refine ⟨_, _, _, rfl, rfl, fun h => ?_⟩
  have hfound := h.lookup "queue_buffering_overflow_strategy" (by decide) (.atom "drop_records") rfl
    .undefined
  revert hfound
  decide

/-- `[client_id: "a", client_id: "b"]` -/
def repeatedClientId : List Term :=
  [.tuple [.atom "client_id", .binary [97]], .tuple [.atom "client_id", .binary [98]]]

/-- An option for librdkafka given twice. -/
theorem firstWins_iff_sample : ∃ rdk c,
    convertKafkaConfig (ofList repeatedClientId) = .ok [] rdk ∧
    parseConfig sampleSet (ofList rdk) (fun _ => none) = .ok c ∧
    (FirstWins (fun c name => c name) (fun _ value => some value) repeatedClientId [] c ↔
      ∀ key ∈ kafkaFamily.own,
        firstValue key repeatedClientId = lastValue key repeatedClientId) := by
  let rdk : List Term := [.tuple [toCharlist (kafkaKey "client_id"), .binary [98]],
    .tuple [toCharlist (kafkaKey "client_id"), .binary [97]]]
  have hconf : convertKafkaConfig (ofList repeatedClientId) = .ok [] rdk := rfl
  exact ⟨rdk, _, hconf, rfl, firstWins_iff sampleSet_setsOnly sampleSet_reads hconf rfl⟩

end Exrdkafka.Nif
