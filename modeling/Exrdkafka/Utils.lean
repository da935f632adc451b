import Exrdkafka.Term
import Mathlib.Data.Nat.Digits.Defs

/-!
# Utils

The helpers of `Exrdkafka.Utils`: looking up an option, and turning a term into a binary.
-/

namespace Exrdkafka.Utils

/-- `Utils.lookup/3`: the value of the first entry with this key. -/
def lookup (key : Term) (list : List (Term × Term)) (default : Term := .undefined) : Term :=
  match list.find? fun p => p.1 = key with
  | some (_, result) => result
  | none => default

/-- `Utils.lookup/2` on any term; `none` when it raises. -/
def lookupIn (key : Term) : Term → Option Term
  | .nil => some .undefined
  | .cons (.tuple [k, v]) t => if k = key then some v else lookupIn key t
  | _ => none

/-! ## `append_props` -/

/-- `Utils.append_props`: the entries of the second list whose key has no value yet are put in front
of the first; `none` when no clause matches. -/
def appendProps (l1 : List (Term × Term)) : Term → Option (List (Term × Term))
  | .cons (.tuple [k, v]) t =>
    if lookup k l1 = .undefined then appendProps ((k, v) :: l1) t else appendProps l1 t
  | t => if t = .atom "nil" then some l1 else none

/-- A property list as a term. -/
def props (l : List (Term × Term)) : Term := Term.ofList (l.map fun p => .tuple [p.1, p.2])

/-- `Utils.get_env` with a default. Unset, the environment's value is `nil`, which is kept. -/
def getEnv (value default : Term) : Term := if value = .undefined then default else value

/-! ## `to_binary` -/

/-- The ASCII digits of a natural number. -/
def digits (n : ℕ) : List UInt8 :=
  if n = 0 then [48] else ((Nat.digits 10 n).reverse.map fun d => UInt8.ofNat (48 + d))

/-- `Integer.to_string` -/
def integerToString (i : ℤ) : List UInt8 :=
  if i < 0 then 45 :: digits i.natAbs else digits i.natAbs

/-- `float_to_bin`. The options are `decimals: 8, compact: true`; `:erlang.float_to_binary` knows
the atom `:compact` and no pair of it, so the call raises. -/
def floatToBin (_ : ℚ) : Option (List UInt8) := none

/-- `List.to_string`: character data as UTF-8; `none` when the conversion raises. -/
def listToString : Term → Option (List UInt8)
  | .nil => some []
  | .binary b => if ByteArray.validateUTF8 ⟨b.toArray⟩ then some b else none
  | .cons (.int i) t =>
    if 0 ≤ i ∧ i.toNat.isValidChar then
      (listToString t).map (String.utf8EncodeChar (Char.ofNat i.toNat) ++ ·)
    else none
  | .cons h t => (listToString h).bind fun a => (listToString t).map (a ++ ·)
  | _ => none

/-- `Utils.to_binary`; `none` when no clause matches or the conversion raises. -/
def toBinary : Term → Option (List UInt8)
  | .binary b => some b
  | .nil => some []
  | .cons h t => listToString (.cons h t)
  | .atom name => some (Term.utf8 name)
  | .int i => some (integerToString i)
  | .float x => floatToBin x
  | _ => none

example : toBinary (.int (-120)) = some (Term.utf8 "-120") := by decide

end Exrdkafka.Utils
