import BoaLigero.String.FromStrRadix

/-!
# Decimal Digits of a Fixed Number of Places

The last decimal digits of a number, with leading zeros, as a formatter prints a fraction.

## Main results

* `fixedDigits_add` — digits in front and behind.
* `toDigits_eq_fixedDigits` — a number without leading zeros.
* `fixedDigits_injective` — the digits tell numbers apart.
-/

namespace BoaLigero

/-- The last `k` decimal digits. -/
def fixedDigits : ℕ → ℕ → List Char
  | 0, _ => []
  | k + 1, n => fixedDigits k (n / 10) ++ [(n % 10).digitChar]

variable {j k m n : ℕ}

/-- A fixed number of digits is written, with zeros in front. -/
@[simp] theorem length_fixedDigits (k n : ℕ) : (fixedDigits k n).length = k := by
  induction k generalizing n with
  | zero => rfl
  | succ k ih => rw [fixedDigits, List.length_append, ih, List.length_singleton]

/-- The digits in front are those of the quotient by a power of ten, and the digits behind those of
the number. -/
theorem fixedDigits_add (j k n : ℕ) :
    fixedDigits (j + k) n = fixedDigits j (n / 10 ^ k) ++ fixedDigits k n := by
  induction k generalizing n with
  | zero => rw [Nat.pow_zero, Nat.div_one, fixedDigits, List.append_nil, Nat.add_zero]
  | succ k ih =>
      rw [← Nat.add_assoc, fixedDigits, ih, fixedDigits, Nat.div_div_eq_div_mul,
        ← Nat.pow_succ', List.append_assoc]

/-- The last digits of a multiple of a power of ten are zeros. -/
theorem fixedDigits_mul_pow (n k : ℕ) : fixedDigits k (n * 10 ^ k) = List.replicate k '0' := by
  induction k with
  | zero => rfl
  | succ k ih =>
      rw [fixedDigits, Nat.pow_succ, ← Nat.mul_assoc, Nat.mul_div_cancel _ (by decide), ih,
        Nat.mul_mod_left, List.replicate_succ']
      rfl

/-- The digits of zero are zeros. -/
theorem fixedDigits_zero (k : ℕ) : fixedDigits k 0 = List.replicate k '0' := by
  rw [← fixedDigits_mul_pow 0 k, Nat.zero_mul]

/-- Leading zeros. -/
theorem fixedDigits_of_lt (h : n < 10 ^ k) (j : ℕ) :
    fixedDigits (j + k) n = List.replicate j '0' ++ fixedDigits k n := by
  rw [fixedDigits_add, Nat.div_eq_of_lt h, fixedDigits_zero]

/-- Trailing zeros. -/
theorem fixedDigits_add_mul_pow (j k n : ℕ) :
    fixedDigits (j + k) (n * 10 ^ k) = fixedDigits j n ++ List.replicate k '0' := by
  rw [fixedDigits_add, Nat.mul_div_cancel _ (Nat.pow_pos (by decide)), fixedDigits_mul_pow]

/-- **A number without leading zeros.** -/
theorem toDigits_eq_fixedDigits (hlow : 10 ^ k ≤ n) (hhigh : n < 10 ^ (k + 1)) :
    Nat.toDigits 10 n = fixedDigits (k + 1) n := by
  induction k generalizing n with
  | zero =>
      have hlt : n < 10 := hhigh
      rw [Nat.toDigits_of_lt_base hlt, fixedDigits, fixedDigits, Nat.mod_eq_of_lt hlt]
      rfl
  | succ k ih =>
      have hten : 10 ≤ n := le_trans (Nat.le_self_pow (by omega) 10) hlow
      have hlow' : 10 ^ k ≤ n / 10 := by
        rwa [Nat.le_div_iff_mul_le (by decide), ← Nat.pow_succ]
      have hhigh' : n / 10 < 10 ^ (k + 1) := by
        rwa [Nat.div_lt_iff_lt_mul (by decide), ← Nat.pow_succ]
      rw [Nat.toDigits_of_base_le (by decide) hten, ih hlow' hhigh']
      rfl

/-- **The digits tell numbers apart.** -/
theorem fixedDigits_injective (hm : m < 10 ^ k) (hn : n < 10 ^ k)
    (h : fixedDigits k m = fixedDigits k n) : m = n := by
  induction k generalizing m n with
  | zero =>
      rw [Nat.pow_zero] at hm hn
      omega
  | succ k ih =>
      rw [fixedDigits, fixedDigits] at h
      obtain ⟨hfront, hlast⟩ := List.append_inj' h rfl
      have hdiv : m / 10 = n / 10 := by
        rw [Nat.pow_succ] at hm hn
        exact ih (Nat.div_lt_of_lt_mul (by omega)) (Nat.div_lt_of_lt_mul (by omega)) hfront
      have hmod : m % 10 = n % 10 := by
        have hchar := congrArg (toDigit 10) (List.cons.inj hlast).1
        rw [toDigit_digitChar (Nat.mod_lt _ (by decide)),
          toDigit_digitChar (Nat.mod_lt _ (by decide))] at hchar
        exact Option.some.inj hchar
      omega

/-- A digit is no decimal point. -/
theorem digitChar_ne_dot (h : n < 10) : n.digitChar ≠ '.' := by
  revert n
  decide

/-- A digit that is not zero is not written as zero. -/
theorem digitChar_ne_zero (h : n < 10) (hne : n ≠ 0) : n.digitChar ≠ '0' := by
  revert n
  decide

/-- There is no decimal point among digits. -/
theorem ne_dot_of_mem_fixedDigits {c : Char} (h : c ∈ fixedDigits k n) : c ≠ '.' := by
  induction k generalizing n with
  | zero => exact absurd h List.not_mem_nil
  | succ k ih =>
      rcases List.mem_append.mp h with hfront | hlast
      · exact ih hfront
      · rw [List.mem_singleton.mp hlast]
        exact digitChar_ne_dot (Nat.mod_lt _ (by decide))

/-- The first digit of a number without leading zeros. -/
theorem exists_first_digit (hlow : 10 ^ k ≤ n) (hhigh : n < 10 ^ (k + 1)) :
    ∃ c rest, fixedDigits (k + 1) n = c :: rest ∧ c ≠ '0' ∧ c ≠ '.' ∧
      ∀ d ∈ rest, d ≠ '.' := by
  have hdigit : n / 10 ^ k < 10 := by
    rw [Nat.pow_succ, Nat.mul_comm] at hhigh
    exact (Nat.div_lt_iff_lt_mul (Nat.pow_pos (by decide))).mpr hhigh
  have hne : n / 10 ^ k ≠ 0 := by
    have := (Nat.le_div_iff_mul_le (Nat.pow_pos (n := k) (show 0 < 10 by decide))).mpr
      ((Nat.one_mul _).trans_le hlow)
    omega
  refine ⟨(n / 10 ^ k).digitChar, fixedDigits k n, ?_, digitChar_ne_zero hdigit hne,
    digitChar_ne_dot hdigit, fun d => ne_dot_of_mem_fixedDigits⟩
  rw [Nat.add_comm, fixedDigits_add, fixedDigits, fixedDigits, Nat.mod_eq_of_lt hdigit]
  rfl

end BoaLigero
