import Exrdkafka.Config
import Mathlib.Data.Rat.Floor

/-!
# The text of an option

What an option is called and how its value reads, stated apart from the conversion. A name has dots
for the underscores of its key (`dotted`). The values with a text are the binaries, the charlists,
the atoms, the integers and the floats (`Text`).

* `toBinary_eq_some_iff`: `Utils.to_binary` gives the text of every value that has one, but for the
  floats.
* `kafkaKey_eq`: the known keys get their names.
-/

namespace Exrdkafka.Config

open Term

/-! ## Names -/

/-- The name of an option, with dots for the underscores of the key. -/
def dotted (key : String) : String :=
  String.ofList (key.toList.map fun c => if c = '_' then '.' else c)

/-- The charlist of a string: the code points of its characters. -/
def charlist (s : String) : Term := ofList (s.toList.map fun c => .int c.toNat)

example : dotted "auto_commit_interval_ms" = "auto.commit.interval.ms" := by decide

theorem utf8_ofList (l : List Char) : utf8 (String.ofList l) = l.flatMap String.utf8EncodeChar := by
  simp [utf8, List.utf8Encode]

/-- A character is encoded in one byte, its code, when it is ASCII. -/
theorem utf8EncodeChar_of_lt {c : Char} (h : c.toNat < 128) :
    String.utf8EncodeChar c = [UInt8.ofNat c.toNat] := by
  rw [String.utf8EncodeChar]
  exact if_pos (Nat.le_of_lt_succ h)

/-- The first byte of any other character is no ASCII code. -/
theorem lt_of_utf8EncodeChar {c : Char} (h : ∀ b ∈ String.utf8EncodeChar c, b.toNat < 128) :
    c.toNat < 128 := by
  by_contra hc
  have hvalue : ¬ c.val.toNat ≤ 127 := fun hle => hc (Nat.lt_succ_of_le hle)
  rw [String.utf8EncodeChar] at h
  simp only [hvalue, if_false] at h
  split_ifs at h <;> have hhead := h _ List.mem_cons_self <;>
    simp only [UInt8.toNat_ofNat'] at hhead <;> omega

/-- A string whose bytes are ASCII codes. -/
theorem utf8_of_lt {l : List Char} (h : ∀ c ∈ l, c.toNat < 128) :
    utf8 (String.ofList l) = l.map fun c => UInt8.ofNat c.toNat := by
  rw [utf8_ofList, List.flatMap_congr fun c hc => utf8EncodeChar_of_lt (h c hc)]
  exact List.flatMap_pure_eq_map ..

theorem keys_ascii : ∀ key ∈ kafkaConfigKeys ++ topicConfigKeys, ∀ b ∈ utf8 key,
    b.toNat < 128 := by
  decide +kernel

/-- Replacing the byte of an underscore replaces the character. -/
theorem dot_byte {c : Char} (h : c.toNat < 128) :
    (if UInt8.ofNat c.toNat = 95 then 46 else UInt8.ofNat c.toNat) =
      UInt8.ofNat (if c = '_' then '.' else c).toNat := by
  by_cases hunder : c = '_'
  · subst hunder
    rfl
  · rw [if_neg hunder, if_neg]
    intro hbyte
    have hcode : c.toNat % 256 = 95 := congrArg UInt8.toNat hbyte
    rw [Nat.mod_eq_of_lt (by omega)] at hcode
    exact hunder (by rw [← Char.ofNat_toNat c, hcode])

/-- The known keys get their names, as bytes and as charlists. -/
theorem kafkaKey_eq {key : String} (hkey : key ∈ kafkaConfigKeys ++ topicConfigKeys) :
    kafkaKey key = utf8 (dotted key) ∧ toCharlist (kafkaKey key) = charlist (dotted key) := by
  have hbytes := keys_ascii key hkey
  rw [← String.ofList_toList (s := key), utf8_ofList] at hbytes
  have hascii : ∀ c ∈ key.toList, c.toNat < 128 := fun c hc =>
    lt_of_utf8EncodeChar fun b hb => hbytes b (List.mem_flatMap.2 ⟨c, hc, hb⟩)
  have hdots : ∀ c ∈ (dotted key).toList, c.toNat < 128 := by
    rw [dotted, String.toList_ofList, List.forall_mem_map]
    intro c hc
    split_ifs
    · decide
    · exact hascii c hc
  have hname : kafkaKey key = (dotted key).toList.map fun c => UInt8.ofNat c.toNat := by
    rw [kafkaKey, ← String.ofList_toList (s := key), utf8_of_lt hascii, String.ofList_toList,
      dotted, String.toList_ofList, List.map_map, List.map_map]
    exact List.map_congr_left fun c hc => dot_byte (hascii c hc)
  refine ⟨?_, ?_⟩
  · rw [hname, ← utf8_of_lt hdots, String.ofList_toList]
  · rw [hname, toCharlist, charlist, List.map_map]
    refine congrArg ofList (List.map_congr_left fun c hc => ?_)
    have hcode := hdots c hc
    simp only [Function.comp, UInt8.toNat_ofNat', Term.int.injEq]
    omega

/-! ## Values -/

/-- `t` spells `s`: code points and UTF-8 binaries, in lists nested to any depth. -/
inductive Spells : Term → String → Prop where
  | nil : Spells .nil ""
  | binary (s : String) : Spells (.binary (utf8 s)) s
  | char {t : Term} {s : String} (c : Char) :
      Spells t s → Spells (.cons (.int c.toNat) t) (String.singleton c ++ s)
  | nested {h t : Term} {r s : String} : Spells h r → Spells t s → Spells (.cons h t) (r ++ s)

/-- A number with eight decimals, rounded, the trailing zeros after the first dropped. -/
def decimals (x : ℚ) : String :=
  let scaled := (|x| * 10 ^ 8 + 1 / 2).floor.toNat
  let fraction := (Nat.toDigits 10 (10 ^ 8 + scaled % 10 ^ 8)).tail
  let kept := (fraction.tail.reverse.dropWhile (· = '0')).reverse
  let sign := if x < 0 then "-" else ""
  sign ++ (scaled / 10 ^ 8).repr ++ "." ++ String.ofList (fraction.take 1 ++ kept)

example : decimals (-5 / 2) = "-2.5" := by decide +kernel

/-- The text of a value. -/
inductive Text : Term → List UInt8 → Prop where
  | binary (b : List UInt8) : Text (.binary b) b
  | charlist {t : Term} {s : String} : Spells t s → Text t (utf8 s)
  | atom (name : String) : Text (.atom name) (utf8 name)
  | int (i : ℤ) : Text (.int i) (utf8 i.repr)
  | float (x : ℚ) : Text (.float x) (utf8 (decimals x))

/-! ## Character data -/

theorem utf8_append (r s : String) : utf8 (r ++ s) = utf8 r ++ utf8 s := by
  simp [utf8, String.toByteArray_append]

theorem utf8_singleton (c : Char) : utf8 (String.singleton c) = String.utf8EncodeChar c := by
  simp [utf8, String.toByteArray_singleton, List.utf8Encode]

/-- The valid UTF-8 binaries are those of strings. -/
theorem validateUTF8_iff (b : List UInt8) :
    ByteArray.validateUTF8 ⟨b.toArray⟩ = true ↔ ∃ s : String, utf8 s = b := by
  rw [ByteArray.validateUTF8_eq_true_iff]
  refine ⟨fun h => ⟨String.ofByteArray _ h, rfl⟩, ?_⟩
  rintro ⟨s, rfl⟩
  have hs : (⟨(utf8 s).toArray⟩ : ByteArray) = s.toByteArray := by simp [utf8]
  rw [hs]
  exact s.isValidUTF8

/-- A code point is the number of a character. -/
theorem code_iff (i : ℤ) : (0 ≤ i ∧ i.toNat.isValidChar) ↔ ∃ c : Char, i = c.toNat := by
  refine ⟨fun ⟨hi, hchar⟩ => ⟨Char.ofNat i.toNat, ?_⟩, ?_⟩
  · rw [Char.ofNat, dif_pos hchar]
    exact (Int.toNat_of_nonneg hi).symm
  · rintro ⟨c, rfl⟩
    exact ⟨Int.natCast_nonneg _, c.valid⟩

/-- `List.to_string` gives what character data spells. -/
theorem listToString_eq_some_iff (t : Term) (b : List UInt8) :
    Utils.listToString t = some b ↔ ∃ s, Spells t s ∧ utf8 s = b := by
  refine ⟨fun h => ?_, ?_⟩
  · fun_induction Utils.listToString t generalizing b with
    | case1 => exact ⟨"", .nil, Option.some.inj h⟩
    | case2 b' hb =>
      obtain ⟨s, rfl⟩ := (validateUTF8_iff b').1 hb
      exact ⟨s, .binary s, Option.some.inj h⟩
    | case3 => cases h
    | case4 i t hi ih =>
      obtain ⟨a, ha, rfl⟩ := Option.map_eq_some_iff.1 h
      obtain ⟨s, hs, rfl⟩ := ih a ha
      obtain ⟨c, rfl⟩ := (code_iff i).1 hi
      refine ⟨_, .char c hs, ?_⟩
      rw [utf8_append, utf8_singleton, Int.toNat_natCast, Char.ofNat_toNat]
    | case5 => cases h
    | case6 hd t _ ihh iht =>
      obtain ⟨a, ha, h⟩ := Option.bind_eq_some_iff.1 h
      obtain ⟨c, hc, rfl⟩ := Option.map_eq_some_iff.1 h
      obtain ⟨r, hr, rfl⟩ := ihh a ha
      obtain ⟨s, hs, rfl⟩ := iht c hc
      exact ⟨_, .nested hr hs, utf8_append r s⟩
    | case7 => cases h
  · rintro ⟨s, h, rfl⟩
    induction h with
    | nil => rfl
    | binary s => rw [Utils.listToString, if_pos ((validateUTF8_iff _).2 ⟨s, rfl⟩)]
    | char c _ ih =>
      rw [Utils.listToString, if_pos ((code_iff _).2 ⟨c, rfl⟩), ih, utf8_append, utf8_singleton,
        Int.toNat_natCast, Char.ofNat_toNat]
      rfl
    | @nested hd t r s hhd _ ihh iht =>
      have hlist : ∀ i, hd ≠ .int i := by
        rintro i rfl
        cases hhd
      rw [Utils.listToString, ihh, iht, utf8_append]
      · rfl
      · exact hlist

/-! ## Integers -/

theorem digits_of_ge {n : ℕ} (h : 10 ≤ n) :
    Utils.digits n = Utils.digits (n / 10) ++ Utils.digits (n % 10) := by
  have hlast : Utils.digits (n % 10) = [UInt8.ofNat (48 + n % 10)] := by
    by_cases h0 : n % 10 = 0
    · rw [h0]
      rfl
    · rw [Utils.digits, if_neg h0, Nat.digits_of_lt 10 _ h0 (Nat.mod_lt _ (by omega))]
      rfl
  rw [hlast, Utils.digits, Utils.digits, if_neg (by omega), if_neg (by omega),
    Nat.digits_eq_cons_digits_div (by omega) (by omega), List.reverse_cons, List.map_append]
  rfl

/-- The digits are those of the numeral. -/
theorem utf8_repr (n : ℕ) : utf8 n.repr = Utils.digits n := by
  induction n using Nat.strong_induction_on with
  | _ n ih =>
    by_cases h : n < 10
    · exact (show ∀ n < 10, utf8 n.repr = Utils.digits n by decide) n h
    · rw [not_lt] at h
      rw [Nat.repr_eq_repr_append_repr h, utf8_append, digits_of_ge h, ih _ (by omega),
        ih _ (by omega)]

theorem utf8_int_repr (i : ℤ) : utf8 i.repr = Utils.integerToString i := by
  rw [Int.repr_eq_if, Utils.integerToString]
  by_cases h : 0 ≤ i
  · rw [if_pos h, if_neg (by omega), utf8_repr, show i.toNat = i.natAbs by omega]
  · rw [if_neg h, if_pos (by omega), utf8_append, utf8_repr, show (-i).toNat = i.natAbs by omega]
    rfl

/-! ## `to_binary` -/

/-- `Utils.to_binary` gives the text of a value, but raises on a float. -/
theorem toBinary_eq_some_iff (v : Term) (b : List UInt8) :
    Utils.toBinary v = some b ↔ Text v b ∧ ∀ x, v ≠ .float x := by
  refine ⟨fun h => ?_, ?_⟩
  · cases v with
    | binary b' =>
      obtain rfl := Option.some.inj h
      exact ⟨.binary _, by simp⟩
    | nil =>
      obtain rfl := Option.some.inj h
      exact ⟨.charlist .nil, by simp⟩
    | cons hd t =>
      obtain ⟨s, hs, rfl⟩ := (listToString_eq_some_iff _ _).1 h
      exact ⟨.charlist hs, by simp⟩
    | atom name =>
      obtain rfl := Option.some.inj h
      exact ⟨.atom name, by simp⟩
    | int i =>
      obtain rfl := Option.some.inj h
      exact ⟨utf8_int_repr i ▸ .int i, by simp⟩
    | _ => cases h
  · rintro ⟨h, hfloat⟩
    cases h with
    | charlist hs =>
      have hstring := (listToString_eq_some_iff _ _).2 ⟨_, hs, rfl⟩
      cases hs with
      | nil => rfl
      | binary s => rfl
      | char _ _ => exact hstring
      | nested _ _ => exact hstring
    | int i => rw [Utils.toBinary, utf8_int_repr]
    | float x => exact absurd rfl (hfloat x)
    | _ => rfl

/-- A value has one text. -/
theorem Text.unique {v : Term} {b c : List UInt8} (hb : Text v b) (hc : Text v c) : b = c := by
  by_cases hfloat : ∃ x, v = .float x
  · obtain ⟨x, rfl⟩ := hfloat
    cases hb with
    | float => cases hc with
      | float => rfl
      | charlist hs => cases hs
    | charlist hs => cases hs
  · have hfloat : ∀ x, v ≠ .float x := fun x hx => hfloat ⟨x, hx⟩
    have hb := (toBinary_eq_some_iff v b).2 ⟨hb, hfloat⟩
    have hc := (toBinary_eq_some_iff v c).2 ⟨hc, hfloat⟩
    exact Option.some.inj (hb.symm.trans hc)

end Exrdkafka.Config
