import Mathlib.Data.Rat.Defs

/-!
# Erlang terms

The values that cross the boundary between the Elixir modules and the NIFs. Lists are built from
`nil` and `cons`, so improper lists are terms as well; floats are finite, so a rational number
stands for each; functions, processes and references are known by a number (a NIF resource is a
reference).
-/

namespace Exrdkafka

/-- An Erlang term. -/
inductive Term where
  | atom (name : String)
  | int (i : ℤ)
  | float (x : ℚ)
  | binary (bytes : List UInt8)
  | nil
  | cons (head tail : Term)
  | tuple (elems : List Term)
  | map (entries : List (Term × Term))
  | func (arity id : ℕ)
  | pid (id : ℕ)
  | ref (id : ℕ)

namespace Term

/-! ## Equality -/

mutual

/-- Equality of terms, as a test. -/
def beq : Term → Term → Bool
  | .atom a, .atom b => a == b
  | .int a, .int b => a == b
  | .float a, .float b => a == b
  | .binary a, .binary b => a == b
  | .nil, .nil => true
  | .cons a as, .cons b bs => beq a b && beq as bs
  | .tuple as, .tuple bs => beqList as bs
  | .map as, .map bs => beqEntries as bs
  | .func a i, .func b j => a == b && i == j
  | .pid a, .pid b => a == b
  | .ref a, .ref b => a == b
  | _, _ => false

/-- Equality of the elements of two tuples. -/
def beqList : List Term → List Term → Bool
  | [], [] => true
  | a :: as, b :: bs => beq a b && beqList as bs
  | _, _ => false

/-- Equality of the entries of two maps. -/
def beqEntries : List (Term × Term) → List (Term × Term) → Bool
  | [], [] => true
  | (k, v) :: as, (l, w) :: bs => beq k l && beq v w && beqEntries as bs
  | _, _ => false

end

mutual

theorem beq_iff : ∀ a b : Term, beq a b = true ↔ a = b
  | .atom a, b => by cases b <;> simp [beq]
  | .int a, b => by cases b <;> simp [beq]
  | .float a, b => by cases b <;> simp [beq]
  | .binary a, b => by cases b <;> simp [beq]
  | .nil, b => by cases b <;> simp [beq]
  | .cons a as, b => by cases b <;> simp [beq, beq_iff a, beq_iff as]
  | .tuple as, b => by cases b <;> simp [beq, beqList_iff as]
  | .map as, b => by cases b <;> simp [beq, beqEntries_iff as]
  | .func a i, b => by cases b <;> simp [beq]
  | .pid a, b => by cases b <;> simp [beq]
  | .ref a, b => by cases b <;> simp [beq]

theorem beqList_iff : ∀ as bs : List Term, beqList as bs = true ↔ as = bs
  | [], bs => by cases bs <;> simp [beqList]
  | a :: as, bs => by cases bs <;> simp [beqList, beq_iff a, beqList_iff as]

theorem beqEntries_iff : ∀ as bs : List (Term × Term), beqEntries as bs = true ↔ as = bs
  | [], bs => by cases bs <;> simp [beqEntries]
  | (k, v) :: as, bs => by
    rcases bs with _ | ⟨⟨l, w⟩, bs⟩ <;> simp [beqEntries, beq_iff k, beq_iff v, beqEntries_iff as]

end

instance : DecidableEq Term := fun a b => decidable_of_iff _ (beq_iff a b)

/-! ## Common terms -/

/-- The bytes of a string constant of the source. -/
def utf8 (s : String) : List UInt8 := s.toByteArray.data.toList

/-- The binary with the bytes of a string constant. -/
def str (s : String) : Term := .binary (utf8 s)

/-- `:ok` -/
def ok : Term := .atom "ok"

/-- `:undefined` -/
def undefined : Term := .atom "undefined"

/-- `{:error, reason}` -/
def error (reason : Term) : Term := .tuple [.atom "error", reason]

/-- The Elixir list with the given elements. -/
def ofList : List Term → Term
  | [] => .nil
  | a :: as => .cons a (ofList as)

/-- The elements of a proper list, `none` for any other term. -/
def toList? : Term → Option (List Term)
  | .nil => some []
  | .cons a as => (toList? as).map (a :: ·)
  | _ => none

theorem toList?_ofList (l : List Term) : (ofList l).toList? = some l := by
  induction l with
  | nil => rfl
  | cons a l ih => rw [ofList, toList?, ih]; rfl

@[simp] theorem error_inj {a b : Term} : error a = error b ↔ a = b := by simp [error]

@[simp] theorem error_ne_ok (a : Term) : error a ≠ ok := by simp [error, ok]

end Term

end Exrdkafka
