import Mathlib.Data.List.Basic
import Mathlib.Data.List.Induction

/-!
# Properties of histories

A history is the list of the events so far, oldest first, and grows at its end. `AtEach P tr` says
that every event of the history was fine when it happened: `P pre a` holds of the event `a` and the
history `pre` before it. `atEach_concat` is the rule for one more event, `AtEach.append` the one for
several.
-/

namespace Trace

variable {α : Type*}

/-- Every event `a` of the history satisfies `P pre a`, where `pre` is the history before it. -/
def AtEach (P : List α → α → Prop) (tr : List α) : Prop :=
  ∀ pre a post, tr = pre ++ a :: post → P pre a

variable {P Q : List α → α → Prop}

@[simp] theorem atEach_nil : AtEach P [] := by
  intro pre a post h
  simp at h

theorem atEach_concat {tr : List α} {a : α} : AtEach P (tr ++ [a]) ↔ AtEach P tr ∧ P tr a := by
  constructor
  · intro h
    refine ⟨fun pre b post hpre => h pre b (post ++ [a]) (by simp [hpre]), h tr a [] rfl⟩
  · rintro ⟨h, ha⟩ pre b post hpre
    rcases List.eq_nil_or_concat post with rfl | ⟨post, c, rfl⟩
    · obtain ⟨rfl, hb⟩ := List.append_inj' hpre rfl
      exact List.singleton_injective hb ▸ ha
    · have hsplit : tr ++ [a] = (pre ++ b :: post) ++ [c] := by simpa using hpre
      exact h pre b post (List.append_inj' hsplit rfl).1

theorem AtEach.append {tr more : List α} (h : AtEach P tr)
    (hmore : ∀ pre a post, more = pre ++ a :: post → P (tr ++ pre) a) : AtEach P (tr ++ more) := by
  induction more using List.reverseRecOn with
  | nil => simpa using h
  | append_singleton more a ih =>
    have hbefore : AtEach P (tr ++ more) := ih fun pre b post hpre =>
      hmore pre b (post ++ [a]) (by simp [hpre])
    rw [← List.append_assoc]
    exact atEach_concat.2 ⟨hbefore, hmore more a [] rfl⟩

theorem AtEach.mono {tr : List α} (h : AtEach P tr)
    (hPQ : ∀ pre a post, tr = pre ++ a :: post → P pre a → Q pre a) : AtEach Q tr :=
  fun pre a post hpre => hPQ pre a post hpre (h pre a post hpre)

end Trace
