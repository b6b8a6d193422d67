import BoaLigero.Util.DoubleOrder
import BoaLigero.Util.NaturalDouble

/-!
# Doubles that Are Natural Numbers

The natural number that a double is, with negative zero left out, and how it compares with a
natural number of any size that is rounded to a double first.

## Main results

* `asNatural_eq_some_iff` — the natural numbers among the doubles.
* `nearest_le_of_le` — rounding does not cross a number that is a double.
* `double_le_iff` — a comparison with a rounded number.
-/

namespace F64

/-- The natural number that a double is, if it is one other than negative zero. -/
def asNatural (x : F64) : Option ℕ :=
  if x.isIntegral && !x.isNegative then some (x.magnitude / 2 ^ 1074) else none

variable {x : F64} {m n : ℕ}

theorem asNatural_eq_some_iff : x.asNatural = some n ↔ x.Represents n ∧ n < 2 ^ 1024 := by
  constructor
  · intro h
    rw [asNatural] at h
    split at h
    · next hnatural =>
        simp only [isIntegral, Bool.and_eq_true, decide_eq_true_eq, Bool.not_eq_true'] at hnatural
        obtain ⟨⟨hfinite, hmod⟩, hnegative⟩ := hnatural
        have hmagnitude : x.magnitude = n * 2 ^ 1074 := by
          rw [← Option.some.inj h]
          exact (Nat.div_mul_cancel (Nat.dvd_of_mod_eq_zero hmod)).symm
        have hlt : n < 2 ^ 1024 := by
          have hbound := magnitude_of_isFinite hfinite
          rw [hmagnitude, infiniteMagnitude, ← pow_add, show 52 + (2047 - 1) = 1024 + 1074 from rfl,
            pow_add] at hbound
          exact Nat.lt_of_mul_lt_mul_right hbound
        exact ⟨⟨hnegative, isNaN_of_isFinite hfinite, fun _ => ⟨hfinite, hmagnitude⟩,
          fun hle => absurd hlt hle.not_gt⟩, hlt⟩
    · cases h
  · rintro ⟨h, hlt⟩
    obtain ⟨hfinite, hmagnitude⟩ := h.magnitude hlt
    have hintegral : x.isIntegral = true := by
      rw [isIntegral, hfinite, hmagnitude, Nat.mul_mod_left]
      rfl
    rw [asNatural, hintegral, h.isNegative, hmagnitude,
      Nat.mul_div_cancel n (Nat.two_pow_pos 1074)]
    rfl

/-- A natural number that is a double is not changed by rounding. -/
theorem Represents.nearest_eq (h : x.Represents n) (hn : n < 2 ^ 1024) : nearest n = n := by
  obtain hlt | hle := Nat.lt_or_ge n (2 ^ 53)
  · exact nearest_of_lt hlt
  · obtain ⟨-, hmagnitude⟩ := h.magnitude hn
    have hlarge : 2 ^ (53 + 1074) ≤ x.magnitude := by
      rw [hmagnitude, pow_add]
      exact Nat.mul_le_mul_right _ hle
    have hexponent : 1074 < x.exponent - 1 := by
      have hlt : x.magnitude < 2 ^ (53 + (x.exponent - 1)) := by
        rw [F64.magnitude, pow_add]
        exact Nat.mul_lt_mul_of_pos_right x.significand_lt (Nat.two_pow_pos _)
      have := (Nat.pow_lt_pow_iff_right one_lt_two).mp (hlarge.trans_lt hlt)
      omega
    have hsplit : n = x.significand * 2 ^ (x.exponent - 1 - 1074) := by
      refine Nat.eq_of_mul_eq_mul_right (Nat.two_pow_pos 1074) ?_
      rw [← hmagnitude, F64.magnitude, Nat.mul_assoc, ← pow_add, Nat.sub_add_cancel (by omega)]
    rw [hsplit]
    exact nearest_mul_two_pow (le_significand (by omega)) x.significand_lt _

/-- **Rounding does not cross a number that is a double.** -/
theorem nearest_le_of_le (h : m ≤ n) (hn : nearest n = n) : nearest m ≤ n := by
  obtain hlt | hle := Nat.lt_or_ge m (2 ^ 52)
  · rwa [nearest_of_lt (by omega)]
  · obtain ⟨s, rest, hlow, hhigh, hrest, heq⟩ := exists_significand hle
    obtain ⟨t, e, he, -, -, hnearest⟩ := exists_nearest (hle.trans h)
    have hlog : m.log2 ≤ n.log2 := by
      rcases Nat.eq_zero_or_pos m with rfl | hpos
      · omega
      · exact (Nat.le_log2 (by omega)).mpr ((Nat.log2_self_le hpos.ne').trans h)
    -- Both are multiples of the step between doubles at `m`.
    obtain ⟨k, hk⟩ : 2 ^ (m.log2 - 52) ∣ n := by
      rw [← hn, hnearest]
      exact (pow_dvd_pow 2 (by omega)).mul_left t
    have hstep := Nat.two_pow_pos (m.log2 - 52)
    rw [hk, Nat.mul_comm, nearest]
    refine Nat.mul_le_mul_right _ ?_
    rcases Nat.eq_zero_or_pos rest with hzero | hpos
    · have hm : m = s * 2 ^ (m.log2 - 52) := by omega
      have hquotient : divHalfEven m (2 ^ (m.log2 - 52)) = s := by
        nth_rewrite 1 [hm]
        exact divHalfEven_mul s hstep
      rw [hquotient]
      refine Nat.le_of_mul_le_mul_right ?_ hstep
      rw [← hm, Nat.mul_comm, ← hk]
      exact h
    · refine (divHalfEven_bounds hstep (a := s) (b := s + 1) (by omega)
        (by rw [Nat.succ_mul]; omega)).2.trans ?_
      refine Nat.succ_le_of_lt (Nat.lt_of_mul_lt_mul_right (a := 2 ^ (m.log2 - 52)) ?_)
      rw [Nat.mul_comm k, ← hk]
      omega

/-- What is below a rounded number is below the number. -/
theorem lt_of_lt_nearest (h : n < nearest m) (hn : nearest n = n) : n < m := by
  by_contra hle
  exact absurd (nearest_le_of_le (not_lt.mp hle) hn) h.not_ge

/-- Small numbers are compared as they are. -/
theorem lt_nearest_iff (hn : n < 2 ^ 53) : n < nearest m ↔ n < m := by
  constructor
  · exact fun h => lt_of_lt_nearest h (nearest_of_lt hn)
  · intro h
    obtain hsmall | hlarge := Nat.lt_or_ge m (2 ^ 53)
    · rwa [nearest_of_lt hsmall]
    · exact hn.trans_le (two_pow_le_nearest hlarge)

theorem asNatural_double (hn : nearest n < 2 ^ 1024) : (double n).asNatural = some (nearest n) :=
  asNatural_eq_some_iff.mpr ⟨represents_double n, hn⟩

/-- The doubles of 64-bit integers are finite. -/
theorem nearest_le_two_pow (h : n < 2 ^ 64) : nearest n ≤ 2 ^ 64 :=
  nearest_le_of_le h.le (nearest_mul_two_pow (s := 2 ^ 52) le_rfl (by decide) 12)

theorem nearest_lt (h : n < 2 ^ 64) : nearest n < 2 ^ 1024 :=
  (nearest_le_two_pow h).trans_lt (Nat.pow_lt_pow_right one_lt_two (by decide))

/-- **Comparing with a rounded number**. -/
theorem double_le_iff (hx : x.asNatural = some n) (hm : nearest m < 2 ^ 1024) :
    (double m).le x = true ↔ nearest m ≤ n := by
  obtain ⟨hx, hn⟩ := asNatural_eq_some_iff.mp hx
  have hd := represents_double m
  rw [le, hd.isNaN, hx.isNaN, units, units, hd.isNegative, hx.isNegative, (hd.magnitude hm).2,
    (hx.magnitude hn).2]
  simp only [Bool.not_false, Bool.true_and, Bool.false_eq_true, if_false, decide_eq_true_eq,
    Nat.cast_le]
  exact Nat.mul_le_mul_right_iff (Nat.two_pow_pos 1074)

/-- A natural number is not negative. -/
theorem not_lt_zero (hx : x.asNatural = some n) : x.lt (zero false) = false := by
  obtain ⟨hx, hn⟩ := asNatural_eq_some_iff.mp hx
  have hzero := represents_zero
  rw [lt, units, units, hx.isNegative, hzero.isNegative,
    (hzero.magnitude (Nat.two_pow_pos 1024)).2, Nat.zero_mul]
  simp

end F64
