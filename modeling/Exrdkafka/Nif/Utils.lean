import Mathlib.Algebra.Group.Int.Defs
import Mathlib.Data.List.TakeWhile
import Exrdkafka.Term

/-!
# Reading and building terms in the NIFs

The accessors of the Erlang NIF interface that the functions of `c_src` use, and the helpers of
`nif_utils.cc` built from them. An accessor that returns `false` in C++ is `none` here.
-/

namespace Exrdkafka.Nif

open Term

/-! ## Accessors -/

/-- The bytes of an iolist (`enif_inspect_iolist_as_binary`). -/
def iolist : Term → Option (List UInt8)
  | .nil => some []
  | .binary b => some b
  | .cons (.int i) t => if 0 ≤ i ∧ i < 256 then (iolist t).map (UInt8.ofNat i.toNat :: ·) else none
  | .cons h t => (iolist h).bind fun a => (iolist t).map (a ++ ·)
  | _ => none

/-- `t` is an iolist of the bytes: a binary, or a list of bytes and iolists. -/
inductive IoData : Term → List UInt8 → Prop where
  | binary (b : List UInt8) : IoData (.binary b) b
  | nil : IoData .nil []
  | byte {t : Term} {bs : List UInt8} (b : UInt8) :
      IoData t bs → IoData (.cons (.int b.toNat) t) (b :: bs)
  | nested {h t : Term} {as bs : List UInt8} :
      IoData h as → IoData t bs → IoData (.cons h t) (as ++ bs)

theorem iolist_eq_some_iff (t : Term) (bs : List UInt8) : iolist t = some bs ↔ IoData t bs := by
  refine ⟨fun h => ?_, fun h => ?_⟩
  · fun_induction iolist t generalizing bs with
    | case1 =>
      obtain rfl := Option.some.inj h
      exact .nil
    | case2 b =>
      obtain rfl := Option.some.inj h
      exact .binary b
    | case3 i t hi ih =>
      obtain ⟨cs, hcs, rfl⟩ := Option.map_eq_some_iff.1 h
      obtain ⟨b, rfl⟩ : ∃ b : UInt8, i = b.toNat :=
        ⟨UInt8.ofNat i.toNat, by rw [UInt8.toNat_ofNat', Nat.mod_eq_of_lt] <;> omega⟩
      simpa using IoData.byte b (ih cs hcs)
    | case4 => cases h
    | case5 hd t _ ihh iht =>
      obtain ⟨as, has, h⟩ := Option.bind_eq_some_iff.1 h
      obtain ⟨cs, hcs, rfl⟩ := Option.map_eq_some_iff.1 h
      exact .nested (ihh as has) (iht cs hcs)
    | case6 => cases h
  · induction h with
    | binary b => rfl
    | nil => rfl
    | byte b _ ih =>
      have hb : b.toNat < 256 := b.toNat_lt
      rw [iolist, if_pos ⟨by omega, by omega⟩, ih]
      simp
    | @nested hd t as bs hhd _ ihh iht =>
      have hlist : ∀ i, hd ≠ .int i := by
        rintro i rfl
        cases hhd
      rw [iolist, ihh, iht]
      · rfl
      · exact hlist

theorem IoData.unique {t : Term} {as bs : List UInt8} (ha : IoData t as) (hb : IoData t bs) :
    as = bs :=
  Option.some.inj (((iolist_eq_some_iff t as).2 ha).symm.trans ((iolist_eq_some_iff t bs).2 hb))

/-- `get_binary`: a binary is inspected as it is, any other term as an iolist. -/
def getBinary : Term → Option (List UInt8)
  | .binary b => some b
  | t => iolist t

/-- `get_string`: the bytes of a binary or iolist as a `std::string`. -/
def getString (t : Term) : Option (List UInt8) := getBinary t

/-- `enif_get_int`: an integer that fits a C `int`. -/
def getInt : Term → Option ℤ
  | .int i => if -2 ^ 31 ≤ i ∧ i < 2 ^ 31 then some i else none
  | _ => none

/-- `enif_get_int64`: an integer that fits 64 bits. -/
def getInt64 : Term → Option ℤ
  | .int i => if -2 ^ 63 ≤ i ∧ i < 2 ^ 63 then some i else none
  | _ => none

/-- `enif_get_resource`: a resource is handed to Elixir as a reference. -/
def getResource : Term → Option ℕ
  | .ref id => some id
  | _ => none

/-- The C string that starts at the bytes of a `std::string` (`c_str()`). -/
def cStr (s : List UInt8) : List UInt8 := s.takeWhile (· ≠ 0)

/-- A C string is read in full exactly when it has no zero byte. -/
theorem cStr_eq_self_iff (s : List UInt8) : cStr s = s ↔ 0 ∉ s := by
  rw [cStr, List.takeWhile_eq_self_iff]
  refine ⟨fun h hmem => ?_, fun h b hb => ?_⟩
  · simpa using h 0 hmem
  · refine decide_eq_true ?_
    rintro rfl
    exact h hb

/-- `make_error` with a message. -/
def makeError (text : String) : Term := Term.error (str text)

/-- `make_error` with a librdkafka code, through `enif_make_int`. -/
def makeErrorCode (code : ℤ) : Term := Term.error (.int code)

/-- `make_badarg`. -/
def makeBadarg : Term := Term.error (.atom "badarg")

@[simp] theorem makeErrorCode_inj {a b : ℤ} : makeErrorCode a = makeErrorCode b ↔ a = b := by
  simp [makeErrorCode]

@[simp] theorem makeErrorCode_ne_ok (a : ℤ) : makeErrorCode a ≠ Term.ok := Term.error_ne_ok _

@[simp] theorem makeBadarg_ne_ok : makeBadarg ≠ Term.ok := Term.error_ne_ok _

@[simp] theorem makeError_ne_ok (s : String) : makeError s ≠ Term.ok := Term.error_ne_ok _

@[simp] theorem makeBadarg_ne_code (a : ℤ) : makeBadarg ≠ makeErrorCode a := by
  simp [makeBadarg, makeErrorCode]

@[simp] theorem makeError_ne_code (s : String) (a : ℤ) : makeError s ≠ makeErrorCode a := by
  simp [makeError, makeErrorCode, str]

end Exrdkafka.Nif
