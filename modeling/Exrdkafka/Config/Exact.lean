import Exrdkafka.Config.Text
import Exrdkafka.Foundations.Sieve

/-!
# Exact conversion

What `convert_kafka_config` and `convert_topic_config` are to return for a list of options, stated
apart from their code: a `Family` of options has the names that the library keeps for itself, with
the values each may have, and the names it passes on.

* `Exact`: a list of acceptable entries is split into the two kinds, both in reverse order; any
  other list is refused with an error about its first entry that is not acceptable.
* `exact_iff`: the conversion keeps this exactly when the first entry that it does not take, if
  there is one, is a pair whose key is not passed on. For any other entry the reason of an exception
  is returned. It takes the acceptable entries, but for a float that is passed on.
-/

namespace Exrdkafka.Config

open Sieve

/-! ## Families of options -/

/-- A family of options. -/
structure Family where
  /-- The options of the library itself. -/
  own : List String
  /-- The values an option of the library may have. -/
  valid : String → Term → Prop
  /-- The options passed on to librdkafka. -/
  keys : List String

/-- A callback: a function of two arguments, or a module. -/
def IsCallback (v : Term) : Prop := (∃ id, v = .func 2 id) ∨ ∃ name, v = .atom name

/-- A strategy for a full queue. -/
def IsStrategy (v : Term) : Prop :=
  v = .atom "local_disk_queue" ∨ v = .atom "block_calling_process" ∨ v = .atom "drop_records"

/-- The options of a client. -/
def kafkaFamily : Family where
  own := ["delivery_report_callback", "stats_callback", "queue_buffering_overflow_strategy"]
  valid key := if key = "queue_buffering_overflow_strategy" then IsStrategy else IsCallback
  keys := kafkaConfigKeys

/-- The options of a topic. -/
def topicFamily : Family where
  own := []
  valid _ _ := False
  keys := topicConfigKeys

namespace Family

variable (f : Family)

/-- An option of the library, with a value it may have. -/
def Own (e : Term) : Prop := ∃ key ∈ f.own, ∃ v, f.valid key v ∧ e = .tuple [.atom key, v]

/-- An option that is passed on, with a value that has a text. -/
def PassedOn (e : Term) : Prop := ∃ key ∈ f.keys, ∃ v b, Text v b ∧ e = .tuple [.atom key, v]

/-- An entry that a configuration may have. -/
def Acceptable (e : Term) : Prop := f.Own e ∨ f.PassedOn e

/-- `entry` is what is passed on for `e`: the name of the option, and the text of the value as a
binary. -/
def Converts (e entry : Term) : Prop := ∃ key ∈ f.keys, ∃ v b, Text v b ∧
  e = .tuple [.atom key, v] ∧ entry = .tuple [charlist (dotted key), .binary b]

end Family

/-- `e` is the first entry of `conf` that is not good. -/
def First (good : Term → Prop) (conf : List Term) (e : Term) : Prop :=
  ∃ pre post, conf = pre ++ e :: post ∧ (∀ x ∈ pre, good x) ∧ ¬ good e

/-- `t` is an entry, or the value of it. -/
def Names (t e : Term) : Prop := t = e ∨ ∃ k, e = .tuple [k, t]

open Classical in
/-- **Exact conversion.** What the conversion of `conf` is to return. -/
structure Exact (f : Family) (conf : List Term) (r : Converted) : Prop where
  /-- It succeeds exactly when every entry is acceptable. -/
  ok_iff : (∃ ek rdk, r = .ok ek rdk) ↔ ∀ e ∈ conf, f.Acceptable e
  /-- Every entry is in one of the lists: the options of the library as they are, the others
  converted. -/
  split : ∀ ek rdk, r = .ok ek rdk → ek = (conf.filter fun e => f.Own e).reverse ∧
    List.Forall₂ f.Converts (conf.filter fun e => ¬ f.Own e).reverse rdk
  /-- A failure is `{:error, {:options, t}}` and names the first entry that is not acceptable. -/
  failed : ∀ e, First f.Acceptable conf e → ∃ t, Names t e ∧ r = .caught (badOptions t)

/-! ## What the conversion takes -/

namespace Family

variable {f : Family}

/-- An option that is passed on, with a float for its value. -/
def PassesFloat (f : Family) (e : Term) : Prop :=
  ∃ key ∈ f.keys, ∃ x, e = .tuple [.atom key, .float x]

/-- An entry that the conversion takes. -/
def Taken (f : Family) (e : Term) : Prop := f.Acceptable e ∧ ¬ f.PassesFloat e

/-- An entry about which an error is thrown: a pair whose key is not passed on. -/
def Reported (f : Family) (e : Term) : Prop :=
  ∃ k v, e = .tuple [k, v] ∧ ∀ key ∈ f.keys, k ≠ .atom key

/-- `entry` is what the code makes of `e`. -/
def Made (f : Family) (e entry : Term) : Prop := ∃ key ∈ f.keys, ∃ v b, Utils.toBinary v = some b ∧
  e = .tuple [.atom key, v] ∧ entry = .tuple [toCharlist (kafkaKey key), .binary b]

theorem taken_of_made {e entry : Term} (h : f.Made e entry) : f.Taken e := by
  obtain ⟨key, hkey, v, b, hb, rfl, -⟩ := h
  obtain ⟨htext, hfloat⟩ := (toBinary_eq_some_iff v b).1 hb
  refine ⟨.inr ⟨key, hkey, v, b, htext, rfl⟩, ?_⟩
  rintro ⟨key', -, x, heq⟩
  cases heq
  exact hfloat x rfl

/-- The code makes what is to be passed on. -/
theorem converts_of_made (hkeys : f.keys ⊆ kafkaConfigKeys ++ topicConfigKeys) {e entry : Term}
    (h : f.Made e entry) : f.Converts e entry := by
  obtain ⟨key, hkey, v, b, hb, he, rfl⟩ := h
  exact ⟨key, hkey, v, b, ((toBinary_eq_some_iff v b).1 hb).1, he,
    by rw [(kafkaKey_eq (hkeys hkey)).2]⟩

theorem Reported.not_passesFloat {e : Term} (h : f.Reported e) : ¬ f.PassesFloat e := by
  obtain ⟨k, v, rfl, hk⟩ := h
  rintro ⟨key, hkey, x, heq⟩
  cases heq
  exact hk key hkey rfl

end Family

theorem first_of_not_all {good : Term → Prop} {conf : List Term} (h : ¬ ∀ e ∈ conf, good e) :
    ∃ e, First good conf e := by
  induction conf with
  | nil => exact absurd (by simp) h
  | cons x conf ih =>
    by_cases hx : good x
    · obtain ⟨e, pre, post, rfl, hpre, he⟩ := ih fun hall => h (List.forall_mem_cons.2 ⟨hx, hall⟩)
      exact ⟨e, x :: pre, post, rfl, List.forall_mem_cons.2 ⟨hx, hpre⟩, he⟩
    · exact ⟨x, [], conf, rfl, by simp, hx⟩

/-! ## One entry -/

section

variable (isOwn : Term → Term → Except Caught Bool) (toRdk : Term → Term → Except Caught Term)

/-- What the loop makes of one entry: an option of the library, an entry for librdkafka, or an
error. -/
def convertEntry : Term → Except Caught (Term ⊕ Term)
  | .tuple [k, v] =>
    match isOwn k v with
    | .error e => .error e
    | .ok true => .ok (.inl (.tuple [k, v]))
    | .ok false => (toRdk k v).map .inr
  | _ => .error .raised

/-- The loop on a list sorts its entries. -/
theorem filterConfig_ofList (conf own rdk : List Term) :
    filterConfig isOwn toRdk (Term.ofList conf) own rdk =
      match sieve (convertEntry isOwn toRdk) conf own rdk with
      | .ok (own, rdk) => .ok own rdk
      | .error e => .caught e := by
  induction conf generalizing own rdk with
  | nil => rfl
  | cons e conf ih =>
    rw [Term.ofList, sieve]
    by_cases hpair : ∃ k v, e = .tuple [k, v]
    · obtain ⟨k, v, rfl⟩ := hpair
      rw [filterConfig, convertEntry]
      rcases isOwn k v with c | _ | _
      · rfl
      · rcases toRdk k v with c | entry
        · rfl
        · exact ih _ _
      · exact ih _ _
    · have hentry : convertEntry isOwn toRdk e = .error .raised := by
        rw [convertEntry]
        exact fun k v h => hpair ⟨k, v, h⟩
      rw [hentry, filterConfig]
      · intro h
        cases h
      · rintro k v t h
        exact hpair ⟨k, v, (Term.cons.inj h).1⟩

end

/-- The cases of the conversion of one entry. -/
inductive EntryCase (f : Family) (e : Term) : Except Caught (Term ⊕ Term) → Prop where
  | own : f.Own e → f.Taken e → EntryCase f e (.ok (.inl e))
  | made {entry : Term} : f.Made e entry → ¬ f.Own e → EntryCase f e (.ok (.inr entry))
  | reported {t : Term} : f.Reported e → ¬ f.Acceptable e → Names t e →
      EntryCase f e (.error (badOptions t))
  | raised : ¬ f.Reported e → ¬ f.Taken e → EntryCase f e (.error .raised)

/-- The conversion of one entry does what the family says. -/
def Implements (f : Family) (convert : Term → Except Caught (Term ⊕ Term)) : Prop :=
  ∀ e, EntryCase f e (convert e)

namespace Implements

variable {f : Family} {convert : Term → Except Caught (Term ⊕ Term)}

theorem own (h : Implements f convert) {e o : Term} (hx : convert e = .ok (.inl o)) :
    f.Own e ∧ o = e := by
  have he := h e
  rw [hx] at he
  cases he with
  | own hown _ => exact ⟨hown, rfl⟩

theorem rdk (h : Implements f convert) {e entry : Term} (hx : convert e = .ok (.inr entry)) :
    f.Made e entry ∧ ¬ f.Own e := by
  have he := h e
  rw [hx] at he
  cases he with
  | made hentry hown => exact ⟨hentry, hown⟩

/-- An entry is taken, or an error is thrown about it, or the conversion raises. -/
theorem error (h : Implements f convert) {e : Term} {c : Caught} (hc : convert e = .error c) :
    ¬ f.Taken e ∧ (f.Reported e → ∃ t, Names t e ∧ c = badOptions t) ∧
      (¬ f.Reported e → c = .raised) := by
  have he := h e
  rw [hc] at he
  cases he with
  | @reported t hrep hnot ht =>
    exact ⟨fun htaken => hnot htaken.1, fun _ => ⟨t, ht, rfl⟩, fun hnrep => absurd hrep hnrep⟩
  | raised hnrep hnot => exact ⟨hnot, fun hrep => absurd hrep hnrep, fun _ => rfl⟩

theorem takes_iff (h : Implements f convert) (e : Term) : Takes convert e ↔ f.Taken e := by
  refine ⟨?_, fun he => ?_⟩
  · rintro ⟨x, hx⟩
    have hcase := h e
    rw [hx] at hcase
    cases hcase with
    | own _ htaken => exact htaken
    | made hentry _ => exact Family.taken_of_made hentry
  · cases hc : convert e with
    | ok x => exact ⟨x, hc⟩
    | error c => exact absurd he (h.error hc).1

open Classical in
/-- The halves of a list of entries that are taken. -/
theorem halves (h : Implements f convert) {conf : List Term} (hconf : ∀ e ∈ conf, Takes convert e) :
    lefts convert conf = conf.filter (fun e => f.Own e) ∧
      List.Forall₂ f.Made (conf.filter fun e => ¬ f.Own e) (rights convert conf) := by
  induction conf with
  | nil => exact ⟨rfl, .nil⟩
  | cons e conf ih =>
    obtain ⟨⟨x, hx⟩, hconf⟩ := List.forall_mem_cons.1 hconf
    obtain ⟨hlefts, hrights⟩ := ih hconf
    rcases x with o | entry
    · obtain ⟨hown, rfl⟩ := h.own hx
      rw [lefts_cons_left hx, rights_cons_left hx, List.filter_cons_of_pos (by simpa using hown),
        List.filter_cons_of_neg (by simpa using hown), hlefts]
      exact ⟨rfl, hrights⟩
    · obtain ⟨hentry, hown⟩ := h.rdk hx
      rw [lefts_cons_right hx, rights_cons_right hx, List.filter_cons_of_neg (by simpa using hown),
        List.filter_cons_of_pos (by simpa using hown)]
      exact ⟨hlefts, .cons hentry hrights⟩

/-! ## The whole list -/

variable {isOwn : Term → Term → Except Caught Bool} {toRdk : Term → Term → Except Caught Term}

/-- A list of entries that are taken is converted. -/
theorem result_of_taken (h : Implements f (convertEntry isOwn toRdk)) {conf : List Term}
    (hconf : ∀ e ∈ conf, f.Taken e) :
    filterConfig isOwn toRdk (Term.ofList conf) [] [] =
      .ok (lefts (convertEntry isOwn toRdk) conf).reverse
        (rights (convertEntry isOwn toRdk) conf).reverse := by
  have htakes : ∀ e ∈ conf, Takes (convertEntry isOwn toRdk) e := fun e he =>
    (h.takes_iff e).2 (hconf e he)
  rw [filterConfig_ofList, sieve_of_ok htakes, List.append_nil, List.append_nil]

/-- The first entry that is not taken decides what is caught. -/
theorem result_of_first (h : Implements f (convertEntry isOwn toRdk)) {conf : List Term} {e : Term}
    (he : First f.Taken conf e) : ∃ c, convertEntry isOwn toRdk e = .error c ∧
      filterConfig isOwn toRdk (Term.ofList conf) [] [] = .caught c := by
  obtain ⟨pre, post, rfl, hpre, he⟩ := he
  cases hc : convertEntry isOwn toRdk e with
  | ok x => exact absurd ((h.takes_iff e).1 ⟨x, hc⟩) he
  | error c =>
    refine ⟨c, rfl, ?_⟩
    rw [filterConfig_ofList, sieve_first (fun x hx => (h.takes_iff x).2 (hpre x hx)) hc]

theorem taken_or_first (h : Implements f (convertEntry isOwn toRdk)) (conf : List Term) :
    (∀ e ∈ conf, f.Taken e) ∨ ∃ e, First f.Taken conf e := by
  rcases takes_or_first (convertEntry isOwn toRdk) conf with hall | ⟨pre, e, post, c, rfl, hpre, hc⟩
  · exact .inl fun e he => (h.takes_iff e).1 (hall e he)
  · refine .inr ⟨e, pre, post, rfl, fun x hx => (h.takes_iff x).1 (hpre x hx), ?_⟩
    exact (h.error hc).1

open Classical in
/-- What a conversion that succeeds has converted. -/
theorem spec_of_ok (h : Implements f (convertEntry isOwn toRdk)) {conf own rdk : List Term}
    (hok : filterConfig isOwn toRdk (Term.ofList conf) [] [] = .ok own rdk) :
    (∀ e ∈ conf, f.Acceptable e) ∧ own = (conf.filter fun e => f.Own e).reverse ∧
      List.Forall₂ f.Made (conf.filter fun e => ¬ f.Own e).reverse rdk := by
  rcases h.taken_or_first conf with hall | ⟨e, he⟩
  · rw [h.result_of_taken hall] at hok
    obtain ⟨rfl, rfl⟩ := Converted.ok.inj hok
    obtain ⟨hlefts, hrights⟩ := h.halves fun e he => (h.takes_iff e).2 (hall e he)
    exact ⟨fun e he => (hall e he).1, by rw [hlefts], List.rel_reverse hrights⟩
  · obtain ⟨c, -, hresult⟩ := h.result_of_first he
    rw [hresult] at hok
    cases hok

/-- If the first entry that is not taken is reported, it is the first that is not acceptable. -/
theorem first_acceptable {conf : List Term} {e e' : Term} (he : First f.Taken conf e)
    (hreported : f.Reported e) (he' : First f.Acceptable conf e') : e' = e := by
  obtain ⟨pre, post, rfl, hpre, hnot⟩ := he
  obtain ⟨pre', post', heq, hpre', hnot'⟩ := he'
  have hoffending : ¬ f.Acceptable e := fun hacc => hnot ⟨hacc, hreported.not_passesFloat⟩
  rcases List.append_eq_append_iff.1 heq with ⟨l, rfl, htail⟩ | ⟨l, rfl, htail⟩
  · cases l with
    | nil => exact (List.cons.inj htail).1.symm
    | cons x l =>
      obtain ⟨rfl, -⟩ := List.cons.inj htail
      exact absurd (hpre' e (by simp)) hoffending
  · cases l with
    | nil => exact (List.cons.inj htail).1
    | cons x l =>
      obtain ⟨rfl, -⟩ := List.cons.inj htail
      exact absurd (hpre _ (by simp)).1 hnot'

/-- A conversion is exact on the lists whose first entry that is not taken is reported. -/
theorem exact_iff (h : Implements f (convertEntry isOwn toRdk))
    (hkeys : f.keys ⊆ kafkaConfigKeys ++ topicConfigKeys) (conf : List Term) :
    Exact f conf (filterConfig isOwn toRdk (Term.ofList conf) [] []) ↔
      ∀ e, First f.Taken conf e → f.Reported e := by
  refine ⟨fun hexact e he => ?_, fun hreported => ?_⟩
  · obtain ⟨c, hc, hresult⟩ := h.result_of_first he
    by_contra hnot
    have hraised := (h.error hc).2.2 hnot
    rw [hraised] at hresult
    -- some entry is not acceptable, since the conversion fails
    have hsome : ¬ ∀ x ∈ conf, f.Acceptable x := fun hall => by
      obtain ⟨ek, rdk, hok⟩ := hexact.ok_iff.2 hall
      rw [hresult] at hok
      cases hok
    obtain ⟨x, hx⟩ := first_of_not_all hsome
    obtain ⟨t, -, hfailed⟩ := hexact.failed x hx
    rw [hresult] at hfailed
    cases hfailed
  rcases h.taken_or_first conf with hall | ⟨e, he⟩
  · have hok := h.result_of_taken hall
    rw [hok]
    refine ⟨⟨fun _ e he => (hall e he).1, fun _ => ⟨_, _, rfl⟩⟩, fun ek rdk heq => ?_,
      fun e he => ?_⟩
    · obtain ⟨-, hown, hrdk⟩ := h.spec_of_ok (hok.trans heq)
      exact ⟨hown, hrdk.imp fun _ _ hmade => Family.converts_of_made hkeys hmade⟩
    · obtain ⟨pre, post, rfl, -, hnot⟩ := he
      exact absurd (hall e (by simp)).1 hnot
  · obtain ⟨c, hc, hresult⟩ := h.result_of_first he
    have hrep := hreported e he
    rw [hresult]
    refine ⟨⟨?_, fun hall => ?_⟩, ?_, fun e' he' => ?_⟩
    · rintro ⟨ek, rdk, hok⟩
      cases hok
    · obtain ⟨pre, post, rfl, -, hnot⟩ := he
      exact absurd ⟨hall e (by simp), hrep.not_passesFloat⟩ hnot
    · intro ek rdk hok
      cases hok
    · obtain rfl := first_acceptable he hrep he'
      obtain ⟨t, ht, rfl⟩ := (h.error hc).2.1 hrep
      exact ⟨t, ht, rfl⟩

end Implements

/-! ## The two conversions -/

/-- The cases of a test for the library's own options. -/
inductive OwnCase (f : Family) (k v : Term) : Except Caught Bool → Prop where
  | kept : f.Own (.tuple [k, v]) → OwnCase f k v (.ok true)
  | passedOn : (∀ key ∈ f.own, k ≠ .atom key) → OwnCase f k v (.ok false)
  | refused {key : String} {t : Term} : key ∈ f.own → k = .atom key → ¬ f.valid key v →
      Names t (.tuple [k, v]) → OwnCase f k v (.error (badOptions t))

/-- The cases of the conversion of one option. -/
inductive RdkCase (f : Family) (k v : Term) : Except Caught Term → Prop where
  | converted {key : String} {b : List UInt8} : key ∈ f.keys → k = .atom key →
      Utils.toBinary v = some b →
      RdkCase f k v (.ok (.tuple [toCharlist (kafkaKey key), .binary b]))
  | unknown : (∀ key ∈ f.keys, k ≠ .atom key) →
      RdkCase f k v (.error (badOptions (.tuple [k, v])))
  | raised {key : String} : key ∈ f.keys → k = .atom key → Utils.toBinary v = none →
      RdkCase f k v (.error .raised)

theorem rdkCase_toLibrdkafka (f : Family) (k v : Term) :
    RdkCase f k v (toLibrdkafka f.keys k v) := by
  unfold toLibrdkafka
  split
  · rename_i key
    split_ifs with hkey
    · split
      · rename_i b hb
        exact .converted hkey rfl hb
      · rename_i hnone
        exact .raised hkey rfl hnone
    · apply RdkCase.unknown
      rintro key' hkey' hatom
      cases hatom
      exact hkey hkey'
  · rename_i hk
    exact .unknown fun key _ hatom => hk key hatom

theorem Family.own_tuple {f : Family} {key : String} {v : Term} :
    f.Own (.tuple [.atom key, v]) ↔ key ∈ f.own ∧ f.valid key v := by
  refine ⟨?_, fun h => ⟨key, h.1, v, h.2, rfl⟩⟩
  rintro ⟨key', hkey', v', hv', heq⟩
  cases heq
  exact ⟨hkey', hv'⟩

theorem Family.own_of_passedOn {f : Family} {k v : Term} (h : ∀ key ∈ f.own, k ≠ .atom key) :
    ¬ f.Own (.tuple [k, v]) := by
  rintro ⟨key, hkey, v', -, heq⟩
  cases heq
  exact h key hkey rfl

theorem Family.taken_of_own {f : Family} (hdisjoint : ∀ key ∈ f.own, key ∉ f.keys) {e : Term}
    (h : f.Own e) : f.Taken e := by
  refine ⟨.inl h, ?_⟩
  rintro ⟨key, hkey, x, rfl⟩
  exact hdisjoint key (Family.own_tuple.1 h).1 hkey

/-- An option of the library that is refused. -/
theorem entryCase_refused {f : Family} (hdisjoint : ∀ key ∈ f.own, key ∉ f.keys) {key : String}
    (hkey : key ∈ f.own) {v t : Term} (hnot : ¬ f.valid key v)
    (ht : Names t (.tuple [.atom key, v])) :
    EntryCase f (.tuple [.atom key, v]) (.error (badOptions t)) := by
  refine .reported ⟨_, _, rfl, ?_⟩ ?_ ht
  · rintro key' hkey' hatom
    cases hatom
    exact hdisjoint key hkey hkey'
  · rintro (hacc | ⟨key', hkey', v', b, -, heq⟩)
    · exact hnot (Family.own_tuple.1 hacc).2
    · cases heq
      exact hdisjoint key hkey hkey'

/-- A pair that is not kept is converted as its key and value allow. -/
theorem entryCase_of_rdkCase {f : Family} {k v : Term} (hnotOwn : ¬ f.Own (.tuple [k, v]))
    {r : Except Caught Term} (hrdk : RdkCase f k v r) :
    EntryCase f (.tuple [k, v]) (r.map .inr) := by
  cases hrdk with
  | @converted key b hkey hk hb =>
    subst hk
    exact .made ⟨key, hkey, v, b, hb, rfl, rfl⟩ hnotOwn
  | unknown hunknown =>
    refine .reported ⟨k, v, rfl, hunknown⟩ ?_ (.inl rfl)
    rintro (hacc | ⟨key, hkey, v', b, -, heq⟩)
    · exact hnotOwn hacc
    · cases heq
      exact hunknown key hkey rfl
  | @raised key hkey hk hnone =>
    subst hk
    refine .raised ?_ ?_
    · rintro ⟨k', v', heq, hunknown⟩
      cases heq
      exact hunknown key hkey rfl
    · rintro ⟨hacc | ⟨key', hkey', v', b, hb, heq⟩, hfloat⟩
      · exact hnotOwn hacc
      · cases heq
        have hsome := (toBinary_eq_some_iff v b).2 ⟨hb, fun x hx => hfloat ⟨key, hkey, x, hx ▸ rfl⟩⟩
        rw [hnone] at hsome
        cases hsome

/-- On an entry that is not a pair, no clause matches. -/
theorem entryCase_of_not_pair {f : Family} {e : Term} (h : ∀ k v, e ≠ .tuple [k, v]) :
    EntryCase f e (.error .raised) := by
  refine .raised ?_ ?_
  · rintro ⟨k, v, rfl, -⟩
    exact h k v rfl
  · rintro ⟨⟨key, -, v, -, rfl⟩ | ⟨key, -, v, b, -, rfl⟩, -⟩
    · exact h _ _ rfl
    · exact h _ _ rfl

/-- A conversion of the source does what its family says, when no name of the family is both kept
and passed on. -/
theorem implements_of_ownCase {f : Family} {isOwn : Term → Term → Except Caught Bool}
    (hown : ∀ k v, OwnCase f k v (isOwn k v)) (hdisjoint : ∀ key ∈ f.own, key ∉ f.keys) :
    Implements f (convertEntry isOwn (toLibrdkafka f.keys)) := by
  intro e
  by_cases hpair : ∃ k v, e = .tuple [k, v]
  · obtain ⟨k, v, rfl⟩ := hpair
    have hcase := hown k v
    rw [convertEntry]
    generalize isOwn k v = answer at hcase
    cases hcase with
    | kept hkept => exact .own hkept (Family.taken_of_own hdisjoint hkept)
    | passedOn hk =>
      exact entryCase_of_rdkCase (Family.own_of_passedOn hk) (rdkCase_toLibrdkafka f k v)
    | refused hkey hk hnot ht =>
      subst hk
      exact entryCase_refused hdisjoint hkey hnot ht
  · have hentry : convertEntry isOwn (toLibrdkafka f.keys) e = .error .raised := by
      rw [convertEntry]
      exact fun k v h => hpair ⟨k, v, h⟩
    rw [hentry]
    exact entryCase_of_not_pair fun k v h => hpair ⟨k, v, h⟩

theorem isCallback_iff (k v : Term) :
    (IsCallback v ∧ checkCallback k v 2 = .ok true) ∨
      (¬ IsCallback v ∧ checkCallback k v 2 = .error (badOptions (.tuple [k, v]))) := by
  cases v with
  | func n id =>
    by_cases hn : n = 2
    · subst hn
      exact .inl ⟨.inl ⟨id, rfl⟩, rfl⟩
    · refine .inr ⟨?_, by rw [checkCallback, if_neg hn]⟩
      rintro (⟨id', heq⟩ | ⟨name, heq⟩)
      · cases heq
        exact hn rfl
      · cases heq
  | atom name => exact .inl ⟨.inr ⟨name, rfl⟩, rfl⟩
  | _ =>
    refine .inr ⟨?_, rfl⟩
    rintro (⟨id', heq⟩ | ⟨name, heq⟩) <;> cases heq

theorem ownCase_checkCallback {key : String} (v : Term)
    (hkey : key = "delivery_report_callback" ∨ key = "stats_callback") :
    OwnCase kafkaFamily (.atom key) v (checkCallback (.atom key) v 2) := by
  have hmem : key ∈ kafkaFamily.own := by
    rcases hkey with rfl | rfl <;> decide
  have hvalid : kafkaFamily.valid key v ↔ IsCallback v := by
    rcases hkey with rfl | rfl <;> rfl
  rcases isCallback_iff (.atom key) v with ⟨hv, heq⟩ | ⟨hv, heq⟩
  · rw [heq]
    exact .kept (Family.own_tuple.2 ⟨hmem, hvalid.2 hv⟩)
  · rw [heq]
    exact .refused hmem rfl (fun h => hv (hvalid.1 h)) (.inl rfl)

/-- `is_exrdkafka_config?` keeps the library's own options. -/
theorem ownCase_isExrdkafkaConfig (k v : Term) :
    OwnCase kafkaFamily k v (isExrdkafkaConfig k v) := by
  rw [isExrdkafkaConfig]
  split_ifs with hdr hstats hstrategy hlocal hblock hdrop
  · subst hdr
    exact ownCase_checkCallback v (.inl rfl)
  · subst hstats
    exact ownCase_checkCallback v (.inr rfl)
  · subst hstrategy
    exact .kept (Family.own_tuple.2 ⟨by decide, .inl hlocal⟩)
  · subst hstrategy
    exact .kept (Family.own_tuple.2 ⟨by decide, .inr (.inl hblock)⟩)
  · subst hstrategy
    exact .kept (Family.own_tuple.2 ⟨by decide, .inr (.inr hdrop)⟩)
  · subst hstrategy
    refine .refused (by decide) rfl ?_ (.inr ⟨_, rfl⟩)
    rintro (h | h | h)
    · exact hlocal h
    · exact hblock h
    · exact hdrop h
  · apply OwnCase.passedOn
    intro key hkey hk
    simp only [kafkaFamily, List.mem_cons, List.not_mem_nil, or_false] at hkey
    rcases hkey with rfl | rfl | rfl
    · exact hdr hk
    · exact hstats hk
    · exact hstrategy hk

theorem implements_kafka :
    Implements kafkaFamily (convertEntry isExrdkafkaConfig toLibrdkafkaConfig) :=
  implements_of_ownCase ownCase_isExrdkafkaConfig (by decide)

theorem implements_topic :
    Implements topicFamily (convertEntry isExrdkafkaTopicConfig toLibrdkafkaTopicConfig) :=
  implements_of_ownCase (fun _ _ => .passedOn (by simp [topicFamily])) (by simp [topicFamily])

/-- **Exact conversion, exactly.** The two conversions are exact on the lists whose first entry that
is not acceptable, or passes a float on, is a pair with a key that is not passed on, if there is
such an entry. -/
theorem conversions_exact_iff (conf : List Term) :
    (Exact kafkaFamily conf (convertKafkaConfig (Term.ofList conf)) ↔
        ∀ e, First kafkaFamily.Taken conf e → kafkaFamily.Reported e) ∧
      (Exact topicFamily conf (convertTopicConfig (Term.ofList conf)) ↔
        ∀ e, First topicFamily.Taken conf e → topicFamily.Reported e) :=
  ⟨implements_kafka.exact_iff (List.subset_append_left ..) conf,
    implements_topic.exact_iff (List.subset_append_right ..) conf⟩

/-- `[client_id: {}]`: a known key with a tuple for its value. -/
theorem not_exact_tuple : ¬ Exact kafkaFamily [.tuple [.atom "client_id", .tuple []]]
    (convertKafkaConfig (Term.ofList [.tuple [.atom "client_id", .tuple []]])) := by
  intro h
  have hraised : convertKafkaConfig (Term.ofList [.tuple [.atom "client_id", .tuple []]]) =
      .caught .raised := by
    rfl
  have hnot : ¬ kafkaFamily.Acceptable (.tuple [.atom "client_id", .tuple []]) := by
    rintro (⟨key, hkey, v, -, heq⟩ | ⟨key, -, v, b, hv, heq⟩)
    · cases heq
      revert hkey
      decide
    · cases heq
      cases hv with
      | charlist hs => cases hs
  obtain ⟨t, -, ht⟩ := h.failed _ ⟨[], [], rfl, by simp, hnot⟩
  rw [hraised] at ht
  cases ht

/-- `[client_id: 1.5]` is refused in the same way. -/
example : convertKafkaConfig (Term.ofList [.tuple [.atom "client_id", .float (3 / 2)]]) =
    .caught .raised := rfl

end Exrdkafka.Config
