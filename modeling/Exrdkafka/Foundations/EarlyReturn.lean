import Mathlib.Data.List.Basic

/-!
# Functions that return early

The body of a C function has local variables, calls functions of a library, and may return from
wherever it stands. `Body ρ σ κ α` is such a body: it returns early with a result in `ρ`, its local
variables are in `σ`, and the calls it makes, kept in order, are in `κ`. What the library answers is
an input of the body.

* `bind_ok` and `bind_error` run a body up to its next statement.
* `exit` is the whole call: the result, from whichever return, and the frame it leaves.
-/

namespace EarlyReturn

variable {ρ σ κ α β : Type}

/-- The local variables and the calls made so far. -/
structure Frame (σ κ : Type) where
  locals : σ
  calls : List κ

/-- A body, or a part of one, that goes on with a value unless it returns. -/
abbrev Body (ρ σ κ α : Type) := EStateM ρ (Frame σ κ) α

/-- Call a function of the library. -/
def call (c : κ) : Body ρ σ κ Unit := modify fun f => { f with calls := f.calls ++ [c] }

/-- Assign to the local variables. -/
def assign (g : σ → σ) : Body ρ σ κ Unit := modify fun f => { f with locals := g f.locals }

/-- The local variables. -/
def locals : Body ρ σ κ σ := fun f => .ok f.locals f

/-- Go on with the value that is there, or return. -/
def orReturn (x : Option α) (r : ρ) : Body ρ σ κ α :=
  match x with
  | some a => pure a
  | none => throw r

/-- The result of the function and the frame at its return. -/
def exit (b : Body ρ σ κ ρ) (f : Frame σ κ) : ρ × Frame σ κ :=
  match b f with
  | .ok r f' => (r, f')
  | .error r f' => (r, f')

variable {b : Body ρ σ κ α} {k : α → Body ρ σ κ β} {f f' : Frame σ κ}

theorem bind_ok {a : α} (h : b f = .ok a f') : (b >>= k) f = k a f' := by
  change EStateM.bind b k f = _
  rw [EStateM.bind, h]

theorem bind_error {r : ρ} (h : b f = .error r f') : (b >>= k) f = .error r f' := by
  change EStateM.bind b k f = _
  rw [EStateM.bind, h]

@[simp] theorem orReturn_some (a : α) (r : ρ) : (orReturn (some a) r : Body ρ σ κ α) = pure a := rfl

@[simp] theorem orReturn_none (r : ρ) : (orReturn none r : Body ρ σ κ α) = throw r := rfl

@[simp] theorem pure_apply (a : α) : (pure a : Body ρ σ κ α) f = .ok a f := rfl

@[simp] theorem throw_apply (r : ρ) : (throw r : Body ρ σ κ α) f = .error r f := rfl

@[simp] theorem call_apply (c : κ) :
    (call c : Body ρ σ κ Unit) f = .ok () { f with calls := f.calls ++ [c] } := rfl

@[simp] theorem assign_apply (g : σ → σ) :
    (assign g : Body ρ σ κ Unit) f = .ok () { f with locals := g f.locals } := rfl

@[simp] theorem locals_apply : (locals : Body ρ σ κ σ) f = .ok f.locals f := rfl

end EarlyReturn
