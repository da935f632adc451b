import Exrdkafka.Foundations.Machine
import Mathlib.Logic.Function.Basic

/-!
# Objects that are owned

The objects of a C library are created and destroyed by hand. A program holds references to an
object, and destroys it by giving up the last one. It may give an object away to become a part of
another one, with which it is destroyed, and it may lend an object to another one, which then keeps
a pointer to it.

`step` is what may be done with the objects there are: whatever destroys an object twice, uses one
that is gone or was given away, or destroys one that another object points to, is not a step. So a
run is free of such misuse, and nothing is leaked when it ends in `empty`.
-/

namespace Ownership

variable {α : Type*}

/-- An object. -/
structure Object (α : Type*) where
  /-- the references that the program holds -/
  refs : ℕ
  /-- the object that it is a part of -/
  whole : Option α
  /-- the objects that it was lent to, which may be gone -/
  lentTo : List α

/-- The objects there are, under their names. -/
abbrev Heap (α : Type*) := α → Option (Object α)

/-- No objects. -/
def empty : Heap α := fun _ => none

/-- What is done with objects. -/
inductive Op (α : Type*) where
  /-- a new object, with one reference -/
  | create (a : α)
  /-- one more reference -/
  | retain (a : α)
  | use (a : α)
  /-- `b` keeps a pointer to `a` -/
  | lend (a b : α)
  /-- `a`, with its parts, becomes a part of `b` -/
  | give (a b : α)
  /-- a reference is given up, and with the last one the object -/
  | release (a : α)

/-- An object that the program has not given away. -/
def own (h : Heap α) (a : α) : Option (Object α) := (h a).filter fun o => o.whole.isNone

theorem own_of_root {h : Heap α} {a : α} {o : Object α} (ha : h a = some o)
    (ho : o.whole = none) : own h a = some o := by
  rw [own, ha, Option.filter_some, ho]
  rfl

variable [DecidableEq α]

/-- `b` is the object `a` or a part of it. -/
def partOf (h : Heap α) (a b : α) : Bool := b = a || (h b).bind Object.whole = some a

/-- The object `a` and its parts become parts of `b`, which is lent what `a` was lent to. -/
def giveTo (h : Heap α) (a b : α) (o : Object α) : Heap α := fun x =>
  (h x).map fun p =>
    if partOf h a x then { p with whole := some b }
    else if x = b then { p with lentTo := o.lentTo ++ p.lentTo }
    else p

/-- The object `a` is destroyed with its parts. -/
def destroy (h : Heap α) (a : α) : Heap α := fun x => if partOf h a x then none else h x

/-- What may be done. -/
def step (h : Heap α) : Op α → Option (Heap α)
  | .create a => if (h a).isNone then some (Function.update h a (some ⟨1, none, []⟩)) else none
  | .retain a => (own h a).map fun o => Function.update h a (some { o with refs := o.refs + 1 })
  | .use a => (own h a).map fun _ => h
  | .lend a b =>
    if (own h b).isSome then
      (own h a).map fun o => Function.update h a (some { o with lentTo := b :: o.lentTo })
    else none
  | .give a b =>
    if (own h b).isSome ∧ a ≠ b then
      (own h a).bind fun o => if o.refs = 1 then some (giveTo h a b o) else none
    else none
  | .release a =>
    (own h a).bind fun o =>
      if o.refs = 1 then
        if o.lentTo.all fun b => (h b).isNone || partOf h a b then some (destroy h a) else none
      else some (Function.update h a (some { o with refs := o.refs - 1 }))

/-! ## The rules -/

section Rules

variable {h : Heap α} {a b : α} {o p : Object α}

theorem partOf_iff : partOf h a b = true ↔ b = a ∨ (h b).bind Object.whole = some a := by
  simp only [partOf, Bool.or_eq_true, decide_eq_true_eq]

theorem step_create (ha : h a = none) :
    step h (.create a) = some (Function.update h a (some ⟨1, none, []⟩)) := by
  rw [step, ha]
  rfl

theorem step_retain (ha : own h a = some o) :
    step h (.retain a) = some (Function.update h a (some { o with refs := o.refs + 1 })) := by
  rw [step, ha]
  rfl

theorem step_use (ha : own h a = some o) : step h (.use a) = some h := by
  rw [step, ha]
  rfl

/-- Uses change nothing. -/
theorem run_uses {ops : List (Op α)} (hops : ∀ op ∈ ops, ∃ a o, op = .use a ∧ own h a = some o) :
    Machine.run step h ops = some h := by
  induction ops with
  | nil => rfl
  | cons op ops ih =>
    obtain ⟨⟨a, o, rfl, ha⟩, hrest⟩ := List.forall_mem_cons.1 hops
    rw [Machine.run_cons, step_use ha, Option.bind_some]
    exact ih hrest

theorem step_lend (ha : own h a = some o) (hb : own h b = some p) :
    step h (.lend a b) =
      some (Function.update h a (some { o with lentTo := b :: o.lentTo })) := by
  rw [step, ha, hb]
  rfl

theorem step_give (hne : a ≠ b) (ha : own h a = some o) (hrefs : o.refs = 1)
    (hb : own h b = some p) : step h (.give a b) = some (giveTo h a b o) := by
  rw [step, ha, hb, if_pos ⟨rfl, hne⟩, Option.bind_some, if_pos hrefs]

/-- A reference that is not the last one. -/
theorem step_release (ha : own h a = some o) (hrefs : o.refs ≠ 1) :
    step h (.release a) = some (Function.update h a (some { o with refs := o.refs - 1 })) := by
  rw [step, ha, Option.bind_some, if_neg hrefs]

/-- The last reference: nothing that is left may point to the object. -/
theorem step_release_last (ha : own h a = some o) (hrefs : o.refs = 1)
    (hlent : ∀ b ∈ o.lentTo, h b = none ∨ (h b).bind Object.whole = some a) :
    step h (.release a) = some (destroy h a) := by
  rw [step, ha, Option.bind_some, if_pos hrefs, if_pos]
  rw [List.all_eq_true]
  intro b hb
  rw [Bool.or_eq_true, Option.isNone_iff_eq_none, partOf_iff]
  exact (hlent b hb).imp_right .inr

end Rules

end Ownership
