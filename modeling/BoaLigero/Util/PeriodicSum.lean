import Mathlib.Algebra.BigOperators.Intervals
import Mathlib.Algebra.Ring.Periodic
import Mathlib.Tactic.Linarith
import Mathlib.Tactic.Ring

/-!
# Partial Sums of a Periodic Sequence

The partial sums of a sequence of integers with a period move by the same amount, the drift,
from one cycle to the next. Over several cycles they are therefore bounded by the bounds of
the first cycle and of the last one.

## Main results

* `Periodic.sum_range_mul_add` — the sum of several cycles and a part of one.
* `Periodic.sum_mem_Icc_iff` — all partial sums of several cycles lie in an interval exactly
  when the extreme ones do.
-/

open Finset

/-- The least partial sum up to a number of terms, the empty sum included. -/
def prefixMin (f : ℕ → ℤ) : ℕ → ℤ
  | 0 => 0
  | n + 1 => min (prefixMin f n) (∑ i ∈ range (n + 1), f i)

/-- The greatest partial sum up to a number of terms, the empty sum included. -/
def prefixMax (f : ℕ → ℤ) : ℕ → ℤ
  | 0 => 0
  | n + 1 => max (prefixMax f n) (∑ i ∈ range (n + 1), f i)

theorem prefixMin_le (f : ℕ → ℤ) {j n : ℕ} (h : j ≤ n) :
    prefixMin f n ≤ ∑ i ∈ range j, f i := by
  induction n with
  | zero => simp [Nat.le_zero.mp h, prefixMin]
  | succ n ih =>
      rcases Nat.le_succ_iff.mp h with hle | rfl
      · exact (min_le_left _ _).trans (ih hle)
      · exact min_le_right _ _

theorem le_prefixMax (f : ℕ → ℤ) {j n : ℕ} (h : j ≤ n) :
    ∑ i ∈ range j, f i ≤ prefixMax f n := by
  induction n with
  | zero => simp [Nat.le_zero.mp h, prefixMax]
  | succ n ih =>
      rcases Nat.le_succ_iff.mp h with hle | rfl
      · exact (ih hle).trans (le_max_left _ _)
      · exact le_max_right _ _

/-- The least partial sum is one of them. -/
theorem exists_prefixMin_eq (f : ℕ → ℤ) (n : ℕ) :
    ∃ j ≤ n, prefixMin f n = ∑ i ∈ range j, f i := by
  induction n with
  | zero => exact ⟨0, le_rfl, rfl⟩
  | succ n ih =>
      obtain ⟨j, hj, heq⟩ := ih
      rcases min_choice (prefixMin f n) (∑ i ∈ range (n + 1), f i) with h | h
      · exact ⟨j, Nat.le_succ_of_le hj, h.trans heq⟩
      · exact ⟨n + 1, le_rfl, h⟩

/-- The greatest partial sum is one of them. -/
theorem exists_prefixMax_eq (f : ℕ → ℤ) (n : ℕ) :
    ∃ j ≤ n, prefixMax f n = ∑ i ∈ range j, f i := by
  induction n with
  | zero => exact ⟨0, le_rfl, rfl⟩
  | succ n ih =>
      obtain ⟨j, hj, heq⟩ := ih
      rcases max_choice (prefixMax f n) (∑ i ∈ range (n + 1), f i) with h | h
      · exact ⟨j, Nat.le_succ_of_le hj, h.trans heq⟩
      · exact ⟨n + 1, le_rfl, h⟩

namespace Periodic

variable {f : ℕ → ℤ} {n : ℕ}

/-- **Cycles add up**: each one contributes the drift. -/
theorem sum_range_mul_add (h : Function.Periodic f n) (q j : ℕ) :
    ∑ i ∈ range (q * n + j), f i = q * ∑ i ∈ range n, f i + ∑ i ∈ range j, f i := by
  have hshift : ∀ q i : ℕ, f (q * n + i) = f i := fun q i => by
    rw [Nat.add_comm]
    exact h.nat_mul q i
  rw [sum_range_add]
  simp only [hshift]
  congr 1
  induction q with
  | zero => simp
  | succ q ih =>
      rw [Nat.succ_mul, sum_range_add, ih]
      simp only [hshift]
      push_cast
      ring

/-- A multiple of the drift lies between the first multiple and the last one. -/
theorem mul_mem_Icc (d : ℤ) {q c : ℕ} (h : q ≤ c) :
    min 0 (c * d) ≤ q * d ∧ q * d ≤ max 0 (c * d) := by
  have hq : (q : ℤ) ≤ c := by exact_mod_cast h
  have hzero : (0 : ℤ) ≤ q := Int.natCast_nonneg q
  rcases le_total 0 d with hd | hd
  · exact ⟨min_le_of_left_le (mul_nonneg hzero hd),
      le_max_of_le_right (mul_le_mul_of_nonneg_right hq hd)⟩
  · exact ⟨min_le_of_right_le (mul_le_mul_of_nonpos_right hq hd),
      le_max_of_le_left (mul_nonpos_of_nonneg_of_nonpos hzero hd)⟩

/-- **Bounds over several cycles**: the partial sums of `c + 1` cycles lie in an interval
exactly when the least one of the first or the last cycle and the greatest one do. -/
theorem sum_mem_Icc_iff (h : Function.Periodic f n) (hn : 0 < n) (a lo hi : ℤ) (c : ℕ) :
    (∀ k ≤ (c + 1) * n, lo ≤ a + ∑ i ∈ range k, f i ∧ a + ∑ i ∈ range k, f i ≤ hi) ↔
      lo ≤ a + min 0 (c * ∑ i ∈ range n, f i) + prefixMin f n ∧
        a + max 0 (c * ∑ i ∈ range n, f i) + prefixMax f n ≤ hi := by
  set drift := ∑ i ∈ range n, f i
  constructor
  · intro hall
    have hat : ∀ q ≤ c, ∀ j ≤ n, lo ≤ a + (q * drift + ∑ i ∈ range j, f i) ∧
        a + (q * drift + ∑ i ∈ range j, f i) ≤ hi := by
      intro q hq j hj
      rw [← sum_range_mul_add h]
      refine hall _ ?_
      rw [Nat.succ_mul]
      exact Nat.add_le_add (Nat.mul_le_mul_right n hq) hj
    have hfirst := hat 0 (Nat.zero_le c)
    have hlast := hat c le_rfl
    obtain ⟨j, hj, hmin⟩ := exists_prefixMin_eq f n
    obtain ⟨k, hk, hmax⟩ := exists_prefixMax_eq f n
    rw [hmin, hmax]
    simp only [Nat.cast_zero, zero_mul, zero_add] at hfirst
    constructor
    · rcases min_choice 0 (c * drift) with heq | heq <;> rw [heq]
      · have := (hfirst j hj).1
        linarith
      · have := (hlast j hj).1
        linarith
    · rcases max_choice 0 (c * drift) with heq | heq <;> rw [heq]
      · have := (hfirst k hk).2
        linarith
      · have := (hlast k hk).2
        linarith
  · rintro ⟨hlo, hhi⟩ k hk
    -- the last sum belongs to the last cycle
    obtain ⟨q, j, hq, hj, rfl⟩ : ∃ q j, q ≤ c ∧ j ≤ n ∧ k = q * n + j := by
      by_cases hlast : k / n ≤ c
      · exact ⟨k / n, k % n, hlast, (Nat.mod_lt k hn).le, (Nat.div_add_mod' k n).symm⟩
      · refine ⟨c, n, le_rfl, le_rfl, le_antisymm (by rwa [Nat.succ_mul] at hk) ?_⟩
        have hdiv : c + 1 ≤ k / n := by omega
        rw [← Nat.succ_mul]
        exact (Nat.mul_le_mul_right n hdiv).trans (Nat.div_mul_le_self k n)
    obtain ⟨hmin, hmax⟩ := mul_mem_Icc drift hq
    have hleast := prefixMin_le f hj
    have hgreatest := le_prefixMax f hj
    rw [sum_range_mul_add h]
    constructor <;> linarith

end Periodic
