import Mathlib.Algebra.GroupWithZero.Nat
import Mathlib.Data.List.Infix
import Mathlib.Data.Option.Basic
import Mathlib.Logic.Relation

/-!
# Machines with partial steps, and what holds along their runs

A machine is a step function `σ → ε → Option σ`: `step s e` is the state after the event `e`, and
`none` when `e` is not enabled in `s`. The events carry every choice of the environment, so a run is
a list of events and a nondeterministic system is the set of its runs.

* `run` folds the steps; `run_append` cuts a run in two.
* `Reachable` collects the states of all runs from a start state; `Reachable.invariant` is the
  induction rule (an invariant of the start, kept by every step, holds of every reachable state).
* `Always P` says that `P` holds in every state met on a run, `Along C` that every step of the run
  is taken under the condition `C`. `always_iff_along` turns a step lemma "from a good state, the
  next state is good exactly when `C` holds of the step" into the same equivalence for runs.
-/

namespace Machine

variable {σ ε : Type*}

/-- The state reached from `s` by the events `es`, `none` when one of them is not enabled. -/
def run (step : σ → ε → Option σ) : σ → List ε → Option σ
  | s, [] => some s
  | s, e :: es => (step s e).bind fun t => run step t es

section Run

variable {step : σ → ε → Option σ}

@[simp] theorem run_nil (s : σ) : run step s [] = some s := rfl

@[simp] theorem run_cons (s : σ) (e : ε) (es : List ε) :
    run step s (e :: es) = (step s e).bind fun t => run step t es := rfl

theorem run_append (s : σ) (es fs : List ε) :
    run step s (es ++ fs) = (run step s es).bind fun t => run step t fs := by
  induction es generalizing s with
  | nil => rfl
  | cons e es ih =>
    cases h : step s e with
    | none => simp [h]
    | some t => simpa [h] using ih t

theorem run_append_some {s t u : σ} {es fs : List ε} (h : run step s es = some t)
    (h' : run step t fs = some u) : run step s (es ++ fs) = some u := by
  rw [run_append, h]
  exact h'

theorem run_concat {s t : σ} {es : List ε} {e : ε} :
    run step s (es ++ [e]) = some t ↔ ∃ u, run step s es = some u ∧ step u e = some t := by
  rw [run_append, Option.bind_eq_some_iff]
  simp

theorem run_singleton {s : σ} {e : ε} : run step s [e] = step s e := by
  simp

theorem run_cons_some {s t : σ} {e : ε} {es : List ε} (h : run step s (e :: es) = some t) :
    ∃ u, step s e = some u ∧ run step u es = some t :=
  Option.bind_eq_some_iff.1 h

end Run

/-! ## Reachable states -/

/-- `t` is the state after some run from `s`. -/
def Reachable (step : σ → ε → Option σ) (s t : σ) : Prop :=
  ∃ es, run step s es = some t

namespace Reachable

variable {step : σ → ε → Option σ}

theorem refl (s : σ) : Reachable step s s := ⟨[], rfl⟩

theorem next {s t u : σ} {e : ε} (h : Reachable step s t) (ht : step t e = some u) :
    Reachable step s u := by
  obtain ⟨es, hes⟩ := h
  exact ⟨es ++ [e], run_concat.2 ⟨t, hes, ht⟩⟩

end Reachable

/-- A property kept by every step is kept by every run. -/
theorem run_invariant {step : σ → ε → Option σ} {P : σ → Prop}
    (hstep : ∀ s e t, P s → step s e = some t → P t) {s t : σ} {es : List ε} (hs : P s)
    (hrun : run step s es = some t) : P t := by
  induction es generalizing s with
  | nil => exact Option.some.inj hrun ▸ hs
  | cons e es ih =>
    obtain ⟨u, hu, hrun⟩ := run_cons_some hrun
    exact ih (hstep s e u hs hu) hrun

/-- The induction rule for reachable states. -/
theorem Reachable.invariant {step : σ → ε → Option σ} {P : σ → Prop} {s t : σ}
    (h : Reachable step s t) (hs : P s) (hstep : ∀ s e t, P s → step s e = some t → P t) : P t := by
  obtain ⟨es, hes⟩ := h
  exact run_invariant hstep hs hes

/-- A run stays where it is when none of its events leads away. -/
theorem run_fixed {step : σ → ε → Option σ} {s t : σ} {es : List ε}
    (hstep : ∀ e ∈ es, ∀ u, step s e = some u → u = s) (hrun : run step s es = some t) : t = s := by
  induction es with
  | nil => exact (Option.some.inj hrun).symm
  | cons e es ih =>
    obtain ⟨u, hu, hes⟩ := run_cons_some hrun
    obtain rfl := hstep e List.mem_cons_self u hu
    exact ih (fun e he => hstep e (List.mem_cons_of_mem _ he)) hes

/-- A property of a run and the state it has reached, kept by every step. -/
theorem run_history {step : σ → ε → Option σ} {P : List ε → σ → Prop} {s t : σ} {es : List ε}
    (hs : P [] s) (hstep : ∀ es t e u, P es t → step t e = some u → P (es ++ [e]) u)
    (hrun : run step s es = some t) : P es t := by
  induction es using List.reverseRecOn generalizing t with
  | nil => exact Option.some.inj hrun ▸ hs
  | append_singleton es e ih =>
    obtain ⟨u, hu, ht⟩ := run_concat.1 hrun
    exact hstep es u e t (ih hu) ht

/-- A machine whose steps are steps of a relation, or several, or none, as far as `f` shows, runs
along the relation. -/
theorem run_refines {τ : Type*} {step : σ → ε → Option σ} {I : σ → Prop} {R : τ → τ → Prop}
    (f : σ → τ)
    (hstep : ∀ s e t, I s → step s e = some t → I t ∧ Relation.ReflTransGen R (f s) (f t))
    {s t : σ} {es : List ε} (hs : I s) (hrun : run step s es = some t) :
    I t ∧ Relation.ReflTransGen R (f s) (f t) := by
  induction es generalizing s with
  | nil => exact Option.some.inj hrun ▸ ⟨hs, .refl⟩
  | cons e es ih =>
    obtain ⟨u, hu, hrun⟩ := run_cons_some hrun
    obtain ⟨hi, hfirst⟩ := hstep s e u hs hu
    obtain ⟨hi', hrest⟩ := ih hi hrun
    exact ⟨hi', hfirst.trans hrest⟩

/-- A run is paid for by a measure of its states and the credit of its events: when every step pays
what is due for it, so does the run. -/
theorem run_budget {step : σ → ε → Option σ} {μ : σ → ℕ} {due credit : ε → ℕ}
    (hstep : ∀ s e t, step s e = some t → due e + μ t ≤ μ s + credit e) {s t : σ} {es : List ε}
    (hrun : run step s es = some t) : (es.map due).sum + μ t ≤ μ s + (es.map credit).sum := by
  induction es generalizing s with
  | nil => simp [Option.some.inj hrun]
  | cons e es ih =>
    obtain ⟨u, hu, hrun⟩ := run_cons_some hrun
    have hfirst := hstep s e u hu
    have hrest := ih hrun
    simp only [List.map_cons, List.sum_cons]
    omega

/-! ## Properties along a run -/

/-- `P` holds in every state met when running `es` from `s`. -/
def Always (step : σ → ε → Option σ) (P : σ → Prop) (s : σ) (es : List ε) : Prop :=
  ∀ pre t, pre <+: es → run step s pre = some t → P t

/-- Every step taken when running `es` from `s` is taken under the condition `C`. -/
def Along (step : σ → ε → Option σ) (C : σ → ε → Prop) (s : σ) (es : List ε) : Prop :=
  ∀ pre e t, pre ++ [e] <+: es → run step s pre = some t → C t e

section Along

variable {step : σ → ε → Option σ} {P : σ → Prop} {C : σ → ε → Prop}

theorem always_nil {s : σ} : Always step P s [] ↔ P s := by
  refine ⟨fun h => h [] s (List.prefix_refl _) rfl, fun h pre t hpre hrun => ?_⟩
  obtain rfl := List.prefix_nil.1 hpre
  exact Option.some.inj hrun ▸ h

theorem always_cons {s t : σ} {e : ε} {es : List ε} (ht : step s e = some t) :
    Always step P s (e :: es) ↔ P s ∧ Always step P t es := by
  constructor
  · intro h
    refine ⟨h [] s (List.nil_prefix) rfl, fun pre u hpre hrun => ?_⟩
    exact h (e :: pre) u (List.cons_prefix_cons.2 ⟨rfl, hpre⟩) (by simpa [ht] using hrun)
  · rintro ⟨hs, h⟩ pre u hpre hrun
    rcases List.prefix_cons_iff.1 hpre with rfl | ⟨pre', rfl, hpre'⟩
    · exact Option.some.inj hrun ▸ hs
    · exact h pre' u hpre' (by simpa [ht] using hrun)

theorem along_nil {s : σ} : Along step C s [] := by
  intro pre e t hpre
  simp at hpre

/-- A condition on the events alone. -/
theorem along_of_forall_mem {s : σ} {es : List ε} (h : ∀ e ∈ es, ∀ t, C t e) :
    Along step C s es := by
  intro pre e t hpre _
  exact h e (hpre.subset (by simp)) t

theorem along_cons {s t : σ} {e : ε} {es : List ε} (ht : step s e = some t) :
    Along step C s (e :: es) ↔ C s e ∧ Along step C t es := by
  constructor
  · intro h
    refine ⟨h [] e s (by simp) rfl, fun pre f u hpre hrun => ?_⟩
    exact h (e :: pre) f u (List.cons_prefix_cons.2 ⟨rfl, hpre⟩) (by simpa [ht] using hrun)
  · rintro ⟨hs, h⟩ pre f u hpre hrun
    cases pre with
    | nil =>
      obtain rfl : f = e := by simpa using hpre
      exact Option.some.inj hrun ▸ hs
    | cons a pre =>
      obtain ⟨rfl, hpre'⟩ := List.cons_prefix_cons.1 hpre
      exact h pre f u hpre' (by simpa [ht] using hrun)

/-- Conditions that agree on the steps that can be taken agree along a run. -/
theorem along_congr {D : σ → ε → Prop} (h : ∀ s e t, step s e = some t → (C s e ↔ D s e))
    {s t : σ} {es : List ε} (hrun : run step s es = some t) :
    Along step C s es ↔ Along step D s es := by
  induction es generalizing s with
  | nil => exact iff_of_true along_nil along_nil
  | cons e es ih =>
    obtain ⟨u, hu, hrun⟩ := run_cons_some hrun
    rw [along_cons hu, along_cons hu, h s e u hu, ih hrun]

/-- Let `I` be kept by every step. If from a state satisfying `I` and `P` the next state satisfies
`P` exactly when the step meets `C`, then `P` holds all along a run exactly when every step of the
run meets `C`. -/
theorem always_iff_along {I : σ → Prop} (hI : ∀ s e t, I s → step s e = some t → I t)
    (hstep : ∀ s e t, I s → P s → step s e = some t → (P t ↔ C s e)) {s t : σ} {es : List ε}
    (hi : I s) (hs : P s) (hrun : run step s es = some t) :
    Always step P s es ↔ Along step C s es := by
  induction es generalizing s with
  | nil => exact iff_of_true (always_nil.2 hs) along_nil
  | cons e es ih =>
    obtain ⟨u, hu, hrun⟩ := run_cons_some hrun
    rw [always_cons hu, along_cons hu, and_iff_right hs]
    constructor
    · intro h
      have hPu : P u := h [] u List.nil_prefix rfl
      exact ⟨(hstep s e u hi hs hu).1 hPu, (ih (hI s e u hi hu) hPu hrun).1 h⟩
    · rintro ⟨hC, h⟩
      exact (ih (hI s e u hi hu) ((hstep s e u hi hs hu).2 hC) hrun).2 h

/-- A property kept by the steps that meet `C` holds all along a run whose steps meet `C`. -/
theorem always_of_along (hstep : ∀ s e t, P s → step s e = some t → C s e → P t) {s : σ}
    {es : List ε} (hs : P s) (h : Along step C s es) : Always step P s es := by
  intro pre
  induction pre using List.reverseRecOn with
  | nil => rintro t - hrun; exact Option.some.inj hrun ▸ hs
  | append_singleton pre e ih =>
    intro t hpre hrun
    obtain ⟨u, hu, ht⟩ := run_concat.1 hrun
    exact hstep u e t (ih u ((List.prefix_append _ _).trans hpre) hu) ht (h pre e u hpre hu)

/-- Let `P` be kept by the steps that meet `C`, and let `Q`, which follows from it, be lost by the
others. Then `Q` holds all along a run exactly when every step of the run meets `C`. -/
theorem always_iff_along_of_lost {Q : σ → Prop} (hPQ : ∀ s, P s → Q s)
    (hkept : ∀ s e t, P s → step s e = some t → C s e → P t)
    (hlost : ∀ s e t, P s → step s e = some t → ¬ C s e → ¬ Q t) {s t : σ} {es : List ε} (hs : P s)
    (hrun : run step s es = some t) : Always step Q s es ↔ Along step C s es := by
  induction es generalizing s with
  | nil => exact iff_of_true (always_nil.2 (hPQ s hs)) along_nil
  | cons e es ih =>
    obtain ⟨u, hu, hrun⟩ := run_cons_some hrun
    rw [always_cons hu, along_cons hu, and_iff_right (hPQ s hs)]
    by_cases hC : C s e
    · rw [and_iff_right hC, ih (hkept s e u hs hu hC) hrun]
    · refine iff_of_false (fun h => ?_) fun h => hC h.1
      exact hlost s e u hs hu hC (h [] u List.nil_prefix rfl)

/-- Let `P` be needed for every step, and let a step keep it exactly when it meets `C`. Then a run
ends with `P` exactly when it starts with it and every step of it meets `C`. -/
theorem last_iff_along {I : σ → Prop} (hI : ∀ s e t, I s → step s e = some t → I t)
    (henabled : ∀ s e t, step s e = some t → P s)
    (hstep : ∀ s e t, I s → step s e = some t → (P t ↔ C s e)) {s t : σ} {es : List ε} (hi : I s)
    (hrun : run step s es = some t) : P t ↔ P s ∧ Along step C s es := by
  induction es generalizing s with
  | nil => rw [Option.some.inj hrun, and_iff_left along_nil]
  | cons e es ih =>
    obtain ⟨u, hu, hrun⟩ := run_cons_some hrun
    rw [ih (hI s e u hi hu) hrun, hstep s e u hi hu, along_cons hu,
      and_iff_right (henabled s e u hu)]

theorem Always.last {s t : σ} {es : List ε} (h : Always step P s es)
    (hrun : run step s es = some t) : P t :=
  h es t (List.prefix_refl _) hrun

end Along

end Machine
