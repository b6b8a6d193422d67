import BoaLigero.Util.NearestIn
import Mathlib.Algebra.Order.Archimedean.Basic
import Mathlib.Algebra.Order.Field.Rat
import Mathlib.Algebra.Order.Floor.Semiring
import Mathlib.Tactic.FieldSimp
import Mathlib.Tactic.Ring

/-!
# Numbers of a Fixed Number of Significant Digits

The positive rational numbers with `p` significant digits in a base. Neighbours among them differ by
one unit of the last digit of the lower one.

## Main results

* `neighbours_mul` — the neighbours.
* `exists_isNearest` — every positive number has a nearest one.
-/

namespace SignificantDigits

open NearestIn

/-- The numbers of `p` significant digits. -/
def significant (base p : ℕ) : Set ℚ :=
  {q | ∃ (n : ℕ) (k : ℤ), base ^ (p - 1) ≤ n ∧ n < base ^ p ∧ q = n * (base : ℚ) ^ k}

variable {base p n : ℕ} {k : ℤ} {q v : ℚ}

/-- A number of `p` digits, shifted, has `p` significant digits. -/
theorem mem_significant (hlow : base ^ (p - 1) ≤ n) (hhigh : n < base ^ p) (k : ℤ) :
    (n * (base : ℚ) ^ k : ℚ) ∈ significant base p :=
  ⟨n, k, hlow, hhigh, rfl⟩

/-- The least number of `p` digits times the base has one digit more. -/
theorem pow_pred_mul (hp : 1 ≤ p) : base ^ (p - 1) * base = base ^ p := by
  rw [← pow_succ, Nat.sub_add_cancel hp]

/-- A number with all digits full is followed by one with a digit more in front. -/
theorem pow_mem_significant (hbase : 1 < base) (hp : 1 ≤ p) (k : ℤ) :
    ((base ^ p : ℕ) * (base : ℚ) ^ k : ℚ) ∈ significant base p := by
  have hne : (base : ℚ) ≠ 0 := by exact_mod_cast (by omega : base ≠ 0)
  refine ⟨base ^ (p - 1), k + 1, le_rfl, Nat.pow_lt_pow_right hbase (by omega), ?_⟩
  rw [zpow_add_one₀ hne, ← pow_pred_mul hp]
  push_cast
  ring

/-- **Neighbours differ by a unit of the last digit.** -/
theorem neighbours_mul (hbase : 1 < base) (hp : 1 ≤ p) (hlow : base ^ (p - 1) ≤ n)
    (hhigh : n < base ^ p) (k : ℤ) :
    Neighbours (significant base p) (n * (base : ℚ) ^ k) ((n + 1 : ℕ) * (base : ℚ) ^ k) := by
  have hpos : (0 : ℚ) < base := by exact_mod_cast (by omega : 0 < base)
  have hunit : (0 : ℚ) < (base : ℚ) ^ k := zpow_pos hpos k
  refine ⟨mem_significant hlow hhigh k, ?_, ?_, ?_⟩
  · obtain hlt | heq := Nat.lt_or_eq_of_le hhigh
    · exact mem_significant (hlow.trans n.le_succ) hlt k
    · rw [show n + 1 = base ^ p from heq]
      exact pow_mem_significant hbase hp k
  · exact mul_lt_mul_of_pos_right (by exact_mod_cast n.lt_succ_self) hunit
  · rintro w ⟨m, j, hmlow, hmhigh, rfl⟩
    obtain hle | hlt := le_or_gt k j
    · -- a multiple of the unit
      obtain ⟨d, rfl⟩ := Int.le.dest hle
      have hmul : (m : ℚ) * (base : ℚ) ^ (k + d) = (m * base ^ d : ℕ) * (base : ℚ) ^ k := by
        rw [zpow_add₀ hpos.ne', zpow_natCast]
        push_cast
        ring
      rw [hmul]
      obtain h | h := Nat.lt_or_ge n (m * base ^ d)
      · exact .inr (mul_le_mul_of_nonneg_right (by exact_mod_cast h) hunit.le)
      · exact .inl (mul_le_mul_of_nonneg_right (by exact_mod_cast h) hunit.le)
    · -- all digits lie behind the first one of the lower neighbour
      refine .inl ?_
      have hm : (m : ℚ) ≤ (base ^ (p - 1) : ℕ) * base := by
        have := hmhigh.le
        rw [← pow_pred_mul hp] at this
        exact_mod_cast this
      calc (m : ℚ) * (base : ℚ) ^ j ≤ (base ^ (p - 1) : ℕ) * base * (base : ℚ) ^ j :=
            mul_le_mul_of_nonneg_right hm (zpow_pos hpos j).le
        _ = (base ^ (p - 1) : ℕ) * (base : ℚ) ^ (j + 1) := by rw [zpow_add_one₀ hpos.ne']; ring
        _ ≤ (base ^ (p - 1) : ℕ) * (base : ℚ) ^ k :=
            mul_le_mul_of_nonneg_left
              (zpow_le_zpow_right₀ (by exact_mod_cast hbase.le) (by omega)) (by positivity)
        _ ≤ n * (base : ℚ) ^ k :=
            mul_le_mul_of_nonneg_right (by exact_mod_cast hlow) hunit.le

/-- A number with `p` significant digits has a next greater one. -/
theorem exists_neighbour (hbase : 1 < base) (hp : 1 ≤ p) (h : v ∈ significant base p) :
    ∃ b, Neighbours (significant base p) v b := by
  obtain ⟨n, k, hlow, hhigh, rfl⟩ := h
  exact ⟨_, neighbours_mul hbase hp hlow hhigh k⟩

/-- **Every positive number has a nearest one.** -/
theorem exists_isNearest (hbase : 1 < base) (hp : 1 ≤ p) (hq : 0 < q) :
    ∃ v, IsNearest (significant base p) q v := by
  have hpos : (0 : ℚ) < base := by exact_mod_cast (by omega : 0 < base)
  obtain ⟨k, hlow, hhigh⟩ := exists_mem_Ico_zpow hq (show (1 : ℚ) < base by exact_mod_cast hbase)
  -- the digits and what is left, in units of the last one
  obtain ⟨j, hj⟩ : ∃ j : ℤ, k = j + (p - 1 : ℕ) := ⟨k - (p - 1 : ℕ), by omega⟩
  have hunit : (0 : ℚ) < (base : ℚ) ^ j := zpow_pos hpos j
  have hfirst : (base : ℚ) ^ k = (base ^ (p - 1) : ℕ) * (base : ℚ) ^ j := by
    rw [hj, zpow_add₀ hpos.ne', zpow_natCast, mul_comm]
    push_cast
    rfl
  have hlast : (base : ℚ) ^ (k + 1) = (base ^ p : ℕ) * (base : ℚ) ^ j := by
    rw [zpow_add_one₀ hpos.ne', hfirst, ← pow_pred_mul hp]
    push_cast
    ring
  rw [hfirst, ← le_div_iff₀ hunit] at hlow
  rw [hlast, ← div_lt_iff₀ hunit] at hhigh
  have hnlow : base ^ (p - 1) ≤ ⌊q / (base : ℚ) ^ j⌋₊ := Nat.le_floor hlow
  have hnhigh : ⌊q / (base : ℚ) ^ j⌋₊ < base ^ p :=
    (Nat.floor_lt (div_pos hq hunit).le).mpr hhigh
  have hneighbours := neighbours_mul hbase hp hnlow hnhigh j
  have hle := (le_div_iff₀ hunit).mp (Nat.floor_le (div_pos hq hunit).le)
  have hge := (div_lt_iff₀ hunit).mp (Nat.lt_floor_add_one (q / (base : ℚ) ^ j))
  rw [← Nat.cast_succ] at hge
  obtain hmid | hmid := le_or_gt
    (((⌊q / (base : ℚ) ^ j⌋₊ : ℚ) * (base : ℚ) ^ j +
      (⌊q / (base : ℚ) ^ j⌋₊ + 1 : ℕ) * (base : ℚ) ^ j) / 2) q
  · exact ⟨_, hneighbours.isNearest_right hmid hge.le⟩
  · exact ⟨_, hneighbours.isNearest_left hle hmid⟩

/-- There are midpoints below every positive number. -/
theorem exists_midpoint_le (hbase : 1 < base) (hp : 1 ≤ p) (hq : 0 < q) :
    ∃ a b, Neighbours (significant base p) a b ∧ 0 < (a + b) / 2 ∧ (a + b) / 2 ≤ q := by
  have hpos : (0 : ℚ) < base := by exact_mod_cast (by omega : 0 < base)
  obtain ⟨k, hlow, -⟩ := exists_mem_Ico_zpow hq (show (1 : ℚ) < base by exact_mod_cast hbase)
  have hunit : (0 : ℚ) < (base : ℚ) ^ (k - p) := zpow_pos hpos _
  have hlt : base ^ (p - 1) < base ^ p := Nat.pow_lt_pow_right hbase (by omega)
  have hneighbours := neighbours_mul hbase hp le_rfl hlt (k - p)
  have hfirst : (0 : ℚ) < (base ^ (p - 1) : ℕ) * (base : ℚ) ^ (k - p) :=
    mul_pos (by exact_mod_cast Nat.pow_pos (by omega)) hunit
  have hsecond : ((base ^ (p - 1) + 1 : ℕ) : ℚ) * (base : ℚ) ^ (k - p) ≤ q := by
    refine le_trans ?_ hlow
    calc ((base ^ (p - 1) + 1 : ℕ) : ℚ) * (base : ℚ) ^ (k - p)
        ≤ (base ^ p : ℕ) * (base : ℚ) ^ (k - p) :=
          mul_le_mul_of_nonneg_right (by exact_mod_cast hlt) hunit.le
      _ = (base : ℚ) ^ k := by
          push_cast
          rw [← zpow_natCast, ← zpow_add₀ hpos.ne']
          congr 1
          omega
  have := hneighbours.lt
  exact ⟨_, _, hneighbours, by linarith, by linarith⟩

end SignificantDigits
