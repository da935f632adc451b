import Mathlib.Data.List.Basic

/-!
# Callbacks of a server process

A callback of a server process takes the state and returns what the process does next; on the way it
performs effects (timers, calls of other modules, writes to shared tables). `Handled` keeps both, so
a callback is a function and its effects are data.
-/

namespace GenServer

/-- What a callback makes of a message, with the effects performed, in order. A callback that raises
has performed the effects that came before. -/
inductive Handled (σ ρ α : Type*) where
  | reply (r : ρ) (s : σ) (effects : List α)
  | noreply (s : σ) (effects : List α)
  | stop (s : σ) (effects : List α)
  | raise (effects : List α)

namespace Handled

variable {σ ρ α : Type*}

/-- The effects performed. -/
def effects : Handled σ ρ α → List α
  | .reply _ _ es | .noreply _ es | .stop _ es | .raise es => es

/-- The state the process goes on with, if it does. -/
def next : Handled σ ρ α → Option σ
  | .reply _ s _ | .noreply s _ => some s
  | .stop _ _ | .raise _ => none

/-- The reply to the caller, if one is sent. -/
def answer : Handled σ ρ α → Option ρ
  | .reply r _ _ => some r
  | _ => none

/-- The callback has raised. -/
def raised : Handled σ ρ α → Bool
  | .raise _ => true
  | _ => false

end Handled

end GenServer
