import Exrdkafka.Foundations.EarlyReturn
import Exrdkafka.Foundations.Machine

/-!
# Scoped pointers

A scoped pointer is a local variable that destroys what it points to when the function returns, from
wherever it does, the pointer declared last first. A pointer that is released is left to another
owner.

The calls of a function are steps of a machine. `Meets` is a rule of postconditions for the rest of
a body: it is proved statement by statement, and where the body may return, for the calls that the
scoped pointers still make. `Makes` is about each call by itself.
-/

namespace Scoped

open EarlyReturn Machine

variable {ρ κ α η : Type}

/-- A body with scoped pointers. Its local variables are the calls that these make at the return. -/
abbrev Body (ρ κ α : Type) := EarlyReturn.Body ρ (List κ) κ α

/-- A scoped pointer that is not null is declared; `destroy` is the call of its destructor. -/
def scopedPtr (destroy : κ) : Body ρ κ Unit := assign (destroy :: ·)

/-- A scoped pointer is released. -/
def release [DecidableEq κ] (destroy : κ) : Body ρ κ Unit := assign (·.erase destroy)

/-- The calls made by a function that the body calls. -/
def calls (cs : List κ) : Body ρ κ Unit := modify fun f => { f with calls := f.calls ++ cs }

/-- Return `r` under a condition. -/
def returnIf (c : Bool) (r : ρ) : Body ρ κ Unit := if c then throw r else pure ()

/-- Go on with a value, or return what is there instead. -/
def orElse (x : Except ρ α) : Body ρ κ α :=
  match x with
  | .ok a => pure a
  | .error r => throw r

/-- The function: its result, and its calls with those of the scoped pointers. -/
def finish (b : Body ρ κ ρ) : ρ × List κ :=
  let (r, f) := exit b ⟨[], []⟩
  (r, f.calls ++ f.locals)

/-- From the state `h`, with the scoped pointers `g`, the rest `b` of a body comes to a result and a
state with `E`. -/
def Meets (step : η → κ → Option η) (h : η) (g : List κ) (b : Body ρ κ ρ) (E : ρ → η → Prop) :
    Prop :=
  ∀ f h₀, f.locals = g → run step h₀ f.calls = some h →
    ∃ h', run step h₀ ((exit b f).2.calls ++ (exit b f).2.locals) = some h' ∧ E (exit b f).1 h'

namespace Meets

variable {step : η → κ → Option η} {h h' : η} {g : List κ} {E : ρ → η → Prop}

theorem call {c : κ} {k : Unit → Body ρ κ ρ} (hc : step h c = some h')
    (hk : Meets step h' g (k ()) E) : Meets step h g (EarlyReturn.call c >>= k) E :=
  fun f h₀ hf hrun => hk { f with calls := f.calls ++ [c] } h₀ hf (run_concat.2 ⟨h, hrun, hc⟩)

theorem calls {cs : List κ} {k : Unit → Body ρ κ ρ} (hcs : run step h cs = some h')
    (hk : Meets step h' g (k ()) E) : Meets step h g (Scoped.calls cs >>= k) E := by
  intro f h₀ hf hrun
  refine hk { f with calls := f.calls ++ cs } h₀ hf ?_
  rw [run_append, hrun, Option.bind_some, hcs]

theorem scopedPtr {c : κ} {k : Unit → Body ρ κ ρ} (hk : Meets step h (c :: g) (k ()) E) :
    Meets step h g (Scoped.scopedPtr c >>= k) E :=
  fun f h₀ hf hrun => hk { f with locals := c :: f.locals } h₀ (by rw [hf]) hrun

theorem release [DecidableEq κ] {c : κ} {k : Unit → Body ρ κ ρ}
    (hk : Meets step h (g.erase c) (k ()) E) : Meets step h g (Scoped.release c >>= k) E :=
  fun f h₀ hf hrun => hk { f with locals := f.locals.erase c } h₀ (by rw [hf]) hrun

theorem done {r : ρ} (hg : run step h g = some h') (hr : E r h') :
    Meets step h g (pure r) E := by
  intro f h₀ hf hrun
  refine ⟨h', ?_, hr⟩
  show run step h₀ (f.calls ++ f.locals) = some h'
  rw [run_append, hrun, Option.bind_some, hf, hg]

theorem throw {r : ρ} {k : α → Body ρ κ ρ} (hg : run step h g = some h') (hr : E r h') :
    Meets step h g (MonadExcept.throw r >>= k) E := by
  intro f h₀ hf hrun
  refine ⟨h', ?_, hr⟩
  show run step h₀ (f.calls ++ f.locals) = some h'
  rw [run_append, hrun, Option.bind_some, hf, hg]

theorem orReturn {x : Option α} {r : ρ} {k : α → Body ρ κ ρ}
    (hnone : ∃ h', run step h g = some h' ∧ E r h')
    (hk : ∀ a, x = some a → Meets step h g (k a) E) :
    Meets step h g (EarlyReturn.orReturn x r >>= k) E := by
  cases x with
  | none =>
    obtain ⟨h', hg, hr⟩ := hnone
    exact throw hg hr
  | some a => exact hk a rfl

theorem orElse {x : Except ρ α} {k : α → Body ρ κ ρ}
    (herror : ∀ r, x = .error r → ∃ h', run step h g = some h' ∧ E r h')
    (hk : ∀ a, x = .ok a → Meets step h g (k a) E) :
    Meets step h g (Scoped.orElse x >>= k) E := by
  cases x with
  | error r =>
    obtain ⟨h', hg, hr⟩ := herror r rfl
    exact throw hg hr
  | ok a => exact hk a rfl

theorem returnIf {c : Bool} {r : ρ} {k : Unit → Body ρ κ ρ}
    (htrue : c = true → ∃ h', run step h g = some h' ∧ E r h')
    (hk : c = false → Meets step h g (k ()) E) :
    Meets step h g (Scoped.returnIf c r >>= k) E := by
  cases c with
  | true =>
    obtain ⟨h', hg, hr⟩ := htrue rfl
    exact throw hg hr
  | false => exact hk rfl

/-- **What a function comes to.** -/
theorem finish {b : Body ρ κ ρ} (hb : Meets step h [] b E) :
    ∃ h', run step h (Scoped.finish b).2 = some h' ∧ E (Scoped.finish b).1 h' :=
  hb ⟨[], []⟩ h rfl rfl

end Meets

/-! ## What a function may call -/

/-- The calls made so far, and those of the scoped pointers, have `P`. -/
structure Only (P : κ → Prop) (f : Frame (List κ) κ) : Prop where
  calls : ∀ c ∈ f.calls, P c
  locals : ∀ c ∈ f.locals, P c

/-- A part of a body makes only calls that have `P`. -/
def Makes (P : κ → Prop) (b : Body ρ κ α) : Prop :=
  ∀ f, Only P f → match b f with
    | .ok _ f' => Only P f'
    | .error _ f' => Only P f'

namespace Makes

variable {P : κ → Prop} {β : Type}

theorem pure (a : α) : Makes P (Pure.pure a : Body ρ κ α) := fun _ hf => hf

theorem bind {b : Body ρ κ α} {k : α → Body ρ κ β} (hb : Makes P b) (hk : ∀ a, Makes P (k a)) :
    Makes P (b >>= k) := by
  intro f hf
  have hb := hb f hf
  cases heq : b f with
  | ok a f' =>
    rw [heq] at hb
    rw [bind_ok heq]
    exact hk a f' hb
  | error r f' =>
    rw [heq] at hb
    rw [bind_error heq]
    exact hb

theorem calls {cs : List κ} {k : Unit → Body ρ κ α} (h : ∀ c ∈ cs, P c) (hk : Makes P (k ())) :
    Makes P (Scoped.calls cs >>= k) :=
  fun _ hf => hk _ ⟨fun c hc => (List.mem_append.1 hc).elim (hf.calls c) (h c), hf.locals⟩

theorem call {c : κ} {k : Unit → Body ρ κ α} (h : P c) (hk : Makes P (k ())) :
    Makes P (EarlyReturn.call c >>= k) := calls (by simpa using h) hk

theorem scopedPtr {c : κ} {k : Unit → Body ρ κ α} (h : P c) (hk : Makes P (k ())) :
    Makes P (Scoped.scopedPtr c >>= k) :=
  fun _ hf => hk _ ⟨hf.calls, List.forall_mem_cons.2 ⟨h, hf.locals⟩⟩

theorem release [DecidableEq κ] {c : κ} {k : Unit → Body ρ κ α} (hk : Makes P (k ())) :
    Makes P (Scoped.release c >>= k) :=
  fun _ hf => hk _ ⟨hf.calls, fun d hd => hf.locals d (List.mem_of_mem_erase hd)⟩

theorem orReturn {x : Option α} {r : ρ} {k : α → Body ρ κ β} (hk : ∀ a, Makes P (k a)) :
    Makes P (EarlyReturn.orReturn x r >>= k) := by
  cases x with
  | none => exact fun _ hf => hf
  | some a => exact hk a

theorem orElse {x : Except ρ α} {k : α → Body ρ κ β} (hk : ∀ a, Makes P (k a)) :
    Makes P (Scoped.orElse x >>= k) := by
  cases x with
  | error r => exact fun _ hf => hf
  | ok a => exact hk a

theorem returnIf {c : Bool} {r : ρ} {k : Unit → Body ρ κ α} (hk : Makes P (k ())) :
    Makes P (Scoped.returnIf c r >>= k) := by
  cases c with
  | true => exact fun _ hf => hf
  | false => exact hk

/-- **What a function calls.** -/
theorem finish {b : Body ρ κ ρ} (hb : Makes P b) : ∀ c ∈ (Scoped.finish b).2, P c := by
  have hexit : Only P (exit b ⟨[], []⟩).2 := by
    have hf := hb ⟨[], []⟩ ⟨by simp, by simp⟩
    unfold exit
    cases heq : b ⟨[], []⟩ <;> simpa only [heq] using hf
  exact fun c hc => (List.mem_append.1 hc).elim (hexit.calls c) (hexit.locals c)

end Makes

end Scoped
