import Mathlib.Algebra.BigOperators.Group.Finset.Basic
import Mathlib.Algebra.Order.Ring.Int
import Mathlib.Tactic.Ring

/-!
# Arithmetic Progressions of Integers

The sum of a progression in closed form, and the fact that a progression stays between its
ends.

## Main results

* `sum_progression` — the closed form of the sum.
* `progression_mem_Ico` — an interval that has both ends has all that is between.
-/

/-- **The sum of a progression**, from its first difference on. -/
theorem sum_progression (n : ℕ) (a d : ℤ) :
    ∑ j ∈ Finset.range n, (a + (j + 1) * d) = n * a + d * (n * (n + 1) / 2) := by
  induction n with
  | zero => simp
  | succ n ih =>
      have hnext : ((n + 1 : ℕ) : ℤ) * ((n + 1 : ℕ) + 1) / 2 = n * (n + 1) / 2 + (n + 1) := by
        have : ((n + 1 : ℕ) : ℤ) * ((n + 1 : ℕ) + 1) = n * (n + 1) + (n + 1) * 2 := by
          push_cast
          ring
        rw [this, Int.add_mul_ediv_right _ _ (by decide)]
      rw [Finset.sum_range_succ, ih, hnext]
      push_cast
      ring

/-- **A progression stays between its ends**. -/
theorem progression_mem_Ico {a d lo hi : ℤ} {n j : ℕ} (hj : j ≤ n) (hfirst : lo ≤ a ∧ a < hi)
    (hlast : lo ≤ a + n * d ∧ a + n * d < hi) : lo ≤ a + j * d ∧ a + j * d < hi := by
  have hj' : (j : ℤ) ≤ n := Int.ofNat_le.mpr hj
  rcases le_total 0 d with hd | hd
  · have hlow : 0 ≤ (j : ℤ) * d := mul_nonneg (Int.natCast_nonneg j) hd
    have hhigh : (j : ℤ) * d ≤ n * d := mul_le_mul_of_nonneg_right hj' hd
    omega
  · have hlow : (n : ℤ) * d ≤ j * d := mul_le_mul_of_nonpos_right hj' hd
    have hhigh : (j : ℤ) * d ≤ 0 := mul_nonpos_of_nonneg_of_nonpos (Int.natCast_nonneg j) hd
    omega
