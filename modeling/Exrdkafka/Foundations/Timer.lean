import Mathlib.Order.Bounds.Basic
import Mathlib.Algebra.Order.Group.Nat

/-!
# One timer for many intervals

Items that are each due again when their interval has passed share one timer. `InTime` says that a
timer set to `wait` fires before any of the items is late.

* `inTime_iff`: a timer that is set to the least of interval *plus* elapsed time fires in time only
  if an item that has just been served has an interval no other item has less than left of.
-/

namespace Timer

variable {ι : Type*} {s : Set ι} {interval elapsed : ι → ℕ} {wait : ℕ}

/-- After `wait`, no item has gone longer than its interval. -/
def InTime (s : Set ι) (interval elapsed : ι → ℕ) (wait : ℕ) : Prop :=
  ∀ i ∈ s, elapsed i + wait ≤ interval i

/-- The item `j` has just been served, and no item has less left than the interval of `j`. -/
def Tightest (s : Set ι) (interval elapsed : ι → ℕ) (j : ι) : Prop :=
  elapsed j = 0 ∧ ∀ i ∈ s, interval j ≤ interval i - elapsed i

theorem inTime_iff (hwait : IsLeast (Set.image (fun i => interval i + elapsed i) s) wait)
    (helapsed : ∀ i ∈ s, elapsed i ≤ interval i) :
    InTime s interval elapsed wait ↔ ∃ j ∈ s, Tightest s interval elapsed j := by
  obtain ⟨⟨j, hj, hsum⟩, hleast⟩ := hwait
  constructor
  · intro h
    -- the item whose sum is the least has nothing elapsed, or the timer would fire too late for it
    have hzero : elapsed j = 0 := by
      have hlate := h j hj
      simp only at hsum
      omega
    refine ⟨j, hj, hzero, fun i hi => ?_⟩
    have hi := h i hi
    simp only [hzero] at hsum
    omega
  · rintro ⟨k, hk, hzero, htight⟩ i hi
    have hwait_le : wait ≤ interval k := by
      have hle := hleast (Set.mem_image_of_mem _ hk)
      simp only [hzero] at hle
      omega
    have hleft := htight i hi
    have hin := helapsed i hi
    omega

end Timer
