import BoaLigero.Util.DoubleArithmetic

/-!
# The Nearest Doubles of Natural Numbers

Natural numbers of any size rounded to doubles, as numbers: the nearest multiple of the step between
doubles, ties to even, with no bound above which it is infinite.

## Main results

* `round_natCast_of_lt`, `round_natCast_of_le` — the double of a natural number.
* `double_eq_iff` — when two natural numbers have the same double.
* `mulAdd_double` — a fused step of Horner's rule.
-/

namespace F64

/-! ### Halves to even -/

/-- The quotient nearest to the exact one, ties to even. -/
def divHalfEven (n d : ℕ) : ℕ :=
  if 2 * (n % d) < d then n / d
  else if d < 2 * (n % d) then n / d + 1
  else if n / d % 2 = 0 then n / d
  else n / d + 1

variable {n d : ℕ}

/-- Rounding a fraction, ties to even, is the integer division with this rounding. -/
theorem roundHalfEven_div (n : ℕ) (hd : 0 < d) : roundHalfEven ((n : ℚ) / d) = divHalfEven n d := by
  have hdQ : (0 : ℚ) < d := by exact_mod_cast hd
  have hfloor : ⌊(n : ℚ) / d⌋.toNat = n / d := by
    rw [Rat.floor_natCast_div_natCast, ← Int.natCast_ediv, Int.toNat_natCast]
  have hrest : (n : ℚ) / d - (n / d : ℕ) = (n % d : ℕ) / d := by
    rw [sub_eq_iff_eq_add, div_eq_iff hdQ.ne', add_mul, div_mul_cancel₀ _ hdQ.ne']
    exact_mod_cast (Nat.mod_add_div' n d).symm
  have hlow : ((n % d : ℕ) : ℚ) / d < 1 / 2 ↔ 2 * (n % d) < d := by
    rw [div_lt_div_iff₀ hdQ two_pos, one_mul, mul_comm]
    exact_mod_cast Iff.rfl
  have hhigh : 1 / 2 < ((n % d : ℕ) : ℚ) / d ↔ d < 2 * (n % d) := by
    rw [div_lt_div_iff₀ two_pos hdQ, one_mul, mul_comm]
    exact_mod_cast Iff.rfl
  simp only [roundHalfEven, divHalfEven, hfloor, hrest, hlow, hhigh]

/-- A common factor of numerator and denominator changes nothing. -/
theorem divHalfEven_mul_right (n d : ℕ) {k : ℕ} (hk : 0 < k) :
    divHalfEven (n * k) (d * k) = divHalfEven n d := by
  have hmod : 2 * (n * k % (d * k)) = 2 * (n % d) * k := by rw [Nat.mul_mod_mul_right, Nat.mul_assoc]
  simp only [divHalfEven, Nat.mul_div_mul_right n d hk, hmod, Nat.mul_lt_mul_right hk]

/-- A quotient without a remainder is not rounded. -/
theorem divHalfEven_mul (q : ℕ) (hd : 0 < d) : divHalfEven (q * d) d = q := by
  rw [divHalfEven, Nat.mul_mod_left, if_pos (by omega), Nat.mul_div_cancel q hd]

/-- A rounded quotient stays between the integers between which the quotient is. -/
theorem divHalfEven_bounds {a b : ℕ} (hd : 0 < d) (hlow : a * d ≤ n) (hhigh : n < b * d) :
    a ≤ divHalfEven n d ∧ divHalfEven n d ≤ b := by
  have ha : a ≤ n / d := (Nat.le_div_iff_mul_le hd).mpr hlow
  have hb : n / d < b := (Nat.div_lt_iff_lt_mul hd).mpr hhigh
  rw [divHalfEven]
  split_ifs <;> omega

/-! ### The nearest number with a significand of 53 bits -/

/-- The nearest number that is a whole number of steps, ties to even. -/
def nearest (n : ℕ) : ℕ := divHalfEven n (2 ^ (n.log2 - 52)) * 2 ^ (n.log2 - 52)

/-- Below `2 ^ 53` nothing is rounded. -/
theorem nearest_of_lt (h : n < 2 ^ 53) : nearest n = n := by
  have hlog : n.log2 - 52 = 0 := by
    obtain rfl | hne := eq_or_ne n 0
    · rfl
    · have := (Nat.log2_lt hne).mpr h
      omega
  have hone : divHalfEven (n * 1) 1 = n := divHalfEven_mul n one_pos
  rw [nearest, hlog, pow_zero, Nat.mul_one]
  rwa [Nat.mul_one] at hone

/-- The logarithm of a number between two powers of two is the exponent of the lower one. -/
theorem log2_of_bounds {k : ℕ} (hlow : 2 ^ k ≤ n) (hhigh : n < 2 ^ (k + 1)) : n.log2 = k :=
  (Nat.log2_eq_iff (Nat.two_pow_pos k |>.trans_le hlow).ne').mpr ⟨hlow, hhigh⟩

/-- A number of 53 bits and more as a significand and a rest. -/
theorem nearest_of_significand {s e rest : ℕ} (hlow : 2 ^ 52 ≤ s) (hhigh : s < 2 ^ 53)
    (hrest : rest < 2 ^ e) :
    nearest (s * 2 ^ e + rest) = divHalfEven (s * 2 ^ e + rest) (2 ^ e) * 2 ^ e := by
  have hlog : (s * 2 ^ e + rest).log2 = 52 + e := by
    refine log2_of_bounds ?_ ?_
    · rw [pow_add]
      exact (Nat.mul_le_mul_right _ hlow).trans (Nat.le_add_right _ _)
    · calc s * 2 ^ e + rest < (s + 1) * 2 ^ e := by rw [Nat.succ_mul]; omega
        _ ≤ 2 ^ 53 * 2 ^ e := Nat.mul_le_mul_right _ hhigh
        _ = 2 ^ (52 + e + 1) := by rw [← pow_add]; congr 1; omega
  rw [nearest, hlog, Nat.add_sub_cancel_left]

/-- A number with 53 significant bits is not rounded. -/
theorem nearest_mul_two_pow {s : ℕ} (hlow : 2 ^ 52 ≤ s) (hhigh : s < 2 ^ 53) (e : ℕ) :
    nearest (s * 2 ^ e) = s * 2 ^ e := by
  have := @nearest_of_significand s e 0 hlow hhigh (Nat.two_pow_pos e)
  rw [Nat.add_zero] at this
  rw [this, divHalfEven_mul s (Nat.two_pow_pos e)]

/-- A number of more than 53 bits has a significand of 53. -/
theorem exists_significand (h : 2 ^ 52 ≤ n) :
    ∃ s rest, 2 ^ 52 ≤ s ∧ s < 2 ^ 53 ∧ rest < 2 ^ (n.log2 - 52) ∧
      n = s * 2 ^ (n.log2 - 52) + rest := by
  have hne : n ≠ 0 := (Nat.two_pow_pos 52 |>.trans_le h).ne'
  have hlog : 52 ≤ n.log2 := (Nat.le_log2 hne).mpr h
  have hstep := Nat.two_pow_pos (n.log2 - 52)
  refine ⟨n / 2 ^ (n.log2 - 52), n % 2 ^ (n.log2 - 52), ?_, ?_, Nat.mod_lt _ hstep,
    (Nat.div_add_mod' n _).symm⟩
  · rw [Nat.le_div_iff_mul_le hstep, ← pow_add, Nat.add_sub_cancel' hlog]
    exact Nat.log2_self_le hne
  · rw [Nat.div_lt_iff_lt_mul hstep, ← pow_add, show 53 + (n.log2 - 52) = n.log2 + 1 by omega]
    exact Nat.lt_log2_self

/-- The nearest number has a significand of 53 bits as well. -/
theorem exists_nearest (h : 2 ^ 52 ≤ n) :
    ∃ s e, n.log2 - 52 ≤ e ∧ 2 ^ 52 ≤ s ∧ s < 2 ^ 53 ∧ nearest n = s * 2 ^ e := by
  obtain ⟨s, rest, hlow, hhigh, hrest, heq⟩ := exists_significand h
  have hbounds := divHalfEven_bounds (n := n) (a := s) (b := s + 1)
    (Nat.two_pow_pos (n.log2 - 52)) (by omega) (by rw [Nat.succ_mul]; omega)
  obtain hlt | hcarry := Nat.lt_or_ge (divHalfEven n (2 ^ (n.log2 - 52))) (2 ^ 53)
  · exact ⟨_, _, le_rfl, hlow.trans hbounds.1, hlt, rfl⟩
  · refine ⟨2 ^ 52, n.log2 - 52 + 1, Nat.le_succ _, le_rfl, by decide, ?_⟩
    rw [nearest, show divHalfEven n (2 ^ (n.log2 - 52)) = 2 ^ 53 by omega, pow_succ 2 (n.log2 - 52)]
    ring

/-- What was rounded is not changed by rounding it again. -/
theorem nearest_nearest (n : ℕ) : nearest (nearest n) = nearest n := by
  obtain hlt | hle := Nat.lt_or_ge n (2 ^ 52)
  · rw [nearest_of_lt (n := n) (by omega), nearest_of_lt (by omega)]
  · obtain ⟨s, e, -, hlow, hhigh, heq⟩ := exists_nearest hle
    rw [heq, nearest_mul_two_pow hlow hhigh]

/-- Rounding does not cross a power of two. -/
theorem two_pow_le_nearest {k : ℕ} (h : 2 ^ k ≤ n) : 2 ^ k ≤ nearest n := by
  obtain hlt | hle := Nat.lt_or_ge n (2 ^ 52)
  · rwa [nearest_of_lt (by omega)]
  · obtain ⟨s, rest, hlow, hhigh, hrest, heq⟩ := exists_significand hle
    have hne : n ≠ 0 := (Nat.two_pow_pos 52 |>.trans_le hle).ne'
    have hlog : 52 ≤ n.log2 := (Nat.le_log2 hne).mpr hle
    have hk : k ≤ n.log2 := (Nat.le_log2 hne).mpr h
    have hbounds := divHalfEven_bounds (n := n) (a := 2 ^ 52) (b := s + 1)
      (Nat.two_pow_pos (n.log2 - 52))
      ((Nat.mul_le_mul_right _ hlow).trans (by omega)) (by rw [Nat.succ_mul]; omega)
    calc 2 ^ k ≤ 2 ^ n.log2 := Nat.pow_le_pow_right two_pos hk
      _ = 2 ^ 52 * 2 ^ (n.log2 - 52) := by rw [← pow_add, Nat.add_sub_cancel' hlog]
      _ ≤ nearest n := Nat.mul_le_mul_right _ hbounds.1

/-! ### Rounded results are numbers -/

/-- A rounded number is a number. -/
theorem isNaN_round (negative : Bool) (q : ℚ) : (round negative q).isNaN = false := by
  rw [round]
  split
  · next hlt =>
      refine isNaN_of_isFinite ?_
      rw [isFinite, exponent_ofFields (by omega) (Nat.mod_lt _ (by decide))]
      exact decide_eq_true (by omega)
  · cases negative <;> decide

/-- The double of a value is a number. -/
theorem isNaN_ofValue (q : ℚ) (negative : Bool) : (ofValue q negative).isNaN = false := by
  rw [ofValue]
  split
  · cases negative <;> decide
  · exact isNaN_round _ _

/-! ### The double of a natural number -/

/-- The double nearest to a natural number. -/
def double (n : ℕ) : F64 := ofValue n false

/-- A natural number, where it is the value of a double, and infinity from `2 ^ 1024` on. -/
structure Represents (x : F64) (n : ℕ) : Prop where
  isNegative : x.isNegative = false
  isNaN : x.isNaN = false
  magnitude : n < 2 ^ 1024 → x.isFinite = true ∧ x.magnitude = n * 2 ^ 1074
  infinite : 2 ^ 1024 ≤ n → x = infinity false

/-- From `2 ^ 1024` on, numbers are represented by infinity. -/
theorem represents_infinity (h : 2 ^ 1024 ≤ n) : (infinity false).Represents n :=
  ⟨by decide, by decide, fun hlt => absurd h hlt.not_ge, fun _ => rfl⟩

/-- Zero is represented by the positive zero. -/
theorem represents_zero : (zero false).Represents 0 :=
  ⟨by decide, by decide, fun _ => ⟨by decide, by rw [Nat.zero_mul]; decide⟩,
    fun h => absurd (Nat.eq_zero_of_le_zero h) (pow_ne_zero 1024 two_ne_zero)⟩

/-- The bits of a rounded number: the exponent, and a significand that may carry into it. -/
theorem represents_ofBits {s e : ℕ} (hlow : 2 ^ 52 ≤ s) (hhigh : s ≤ 2 ^ 53) (he : 1022 ≤ e)
    (hn : n * 2 ^ 1074 = s * 2 ^ e) (hlt : e * 2 ^ 52 + s < 2047 * 2 ^ 52) :
    (ofFields false ((e * 2 ^ 52 + s) / 2 ^ 52) ((e * 2 ^ 52 + s) % 2 ^ 52)).Represents n := by
  have hexp : (e * 2 ^ 52 + s) / 2 ^ 52 < 2047 := (Nat.div_lt_iff_lt_mul (by decide)).mpr hlt
  have hfraction : (e * 2 ^ 52 + s) % 2 ^ 52 < 2 ^ 52 := Nat.mod_lt _ (by decide)
  have hexponent := @exponent_ofFields false _ _
    (show (e * 2 ^ 52 + s) / 2 ^ 52 < 2048 by omega) hfraction
  have hfrac := @fraction_ofFields false _ _
    (show (e * 2 ^ 52 + s) / 2 ^ 52 < 2048 by omega) hfraction
  have hfinite : (ofFields false ((e * 2 ^ 52 + s) / 2 ^ 52)
      ((e * 2 ^ 52 + s) % 2 ^ 52)).isFinite = true := by
    rw [isFinite, hexponent]
    exact decide_eq_true hexp
  have hmagnitude : (ofFields false ((e * 2 ^ 52 + s) / 2 ^ 52)
      ((e * 2 ^ 52 + s) % 2 ^ 52)).magnitude = n * 2 ^ 1074 := by
    rw [magnitude, significand, hexponent, hfrac, hn]
    obtain hlt | rfl := hhigh.lt_or_eq
    · rw [if_neg (by omega), show (e * 2 ^ 52 + s) / 2 ^ 52 - 1 = e by omega,
        show 2 ^ 52 + (e * 2 ^ 52 + s) % 2 ^ 52 = s by omega]
    · rw [if_neg (by omega), show (e * 2 ^ 52 + 2 ^ 53) / 2 ^ 52 - 1 = e + 1 by omega,
        show 2 ^ 52 + (e * 2 ^ 52 + 2 ^ 53) % 2 ^ 52 = 2 ^ 52 by omega, pow_succ 2 e]
      ring
  refine ⟨?_, isNaN_of_isFinite hfinite, fun _ => ⟨hfinite, hmagnitude⟩, fun hle => ?_⟩
  · exact isNegative_ofFields (by omega) hfraction
  · -- A number from `2 ^ 1024` on has an exponent that is too large.
    exfalso
    have hpow : 2 ^ (1024 + 1074) ≤ s * 2 ^ e := by
      rw [← hn, pow_add]
      exact Nat.mul_le_mul_right _ hle
    have hcarry : s * 2 ^ e < 2 ^ (53 + e) ∨ s = 2 ^ 53 := by
      obtain hlt | heq := hhigh.lt_or_eq
      · rw [pow_add]
        exact .inl (Nat.mul_lt_mul_of_pos_right hlt (Nat.two_pow_pos e))
      · exact .inr heq
    obtain hcarry | rfl := hcarry
    · have : 1024 + 1074 < 53 + e :=
        (Nat.pow_lt_pow_iff_right one_lt_two).mp (hpow.trans_lt hcarry)
      omega
    · rw [← pow_add] at hpow
      have : 1024 + 1074 ≤ 53 + e := (Nat.pow_le_pow_iff_right one_lt_two).mp hpow
      omega

/-- **The double of a natural number** is the nearest number with a significand of 53 bits. -/
theorem represents_double (n : ℕ) : (double n).Represents (nearest n) := by
  obtain rfl | hne := eq_or_ne n 0
  · rw [nearest_of_lt (by decide), double, ofValue, Nat.cast_zero, if_pos rfl]
    exact represents_zero
  · have hneQ : (n : ℚ) ≠ 0 := Nat.cast_ne_zero.mpr hne
    have hlog : (n * 2 ^ 1074).log2 - 52 = n.log2 + 1022 := by
      have : (n * 2 ^ 1074).log2 = n.log2 + 1074 := by
        refine log2_of_bounds ?_ ?_
        · rw [pow_add]
          exact Nat.mul_le_mul_right _ (Nat.log2_self_le hne)
        · rw [Nat.add_right_comm, pow_add]
          exact Nat.mul_lt_mul_of_pos_right Nat.lt_log2_self (Nat.two_pow_pos 1074)
      omega
    have hbounds := divHalfEven_bounds (n := n * 2 ^ 1074) (a := 2 ^ 52) (b := 2 ^ 53)
      (Nat.two_pow_pos (n.log2 + 1022))
      (by
        rw [← pow_add, show 52 + (n.log2 + 1022) = n.log2 + 1074 by omega, pow_add]
        exact Nat.mul_le_mul_right _ (Nat.log2_self_le hne))
      (by
        rw [← pow_add, show 53 + (n.log2 + 1022) = n.log2 + 1 + 1074 by omega, pow_add]
        exact Nat.mul_lt_mul_of_pos_right Nat.lt_log2_self (Nat.two_pow_pos _))
    have hnearest : nearest n * 2 ^ 1074 =
        divHalfEven (n * 2 ^ 1074) (2 ^ (n.log2 + 1022)) * 2 ^ (n.log2 + 1022) := by
      obtain hlt | hle := Nat.lt_or_ge n.log2 52
      · have hsmall : n < 2 ^ 53 := (Nat.log2_lt hne).mp (by omega)
        have hsplit : n * 2 ^ 1074 = n * 2 ^ (52 - n.log2) * 2 ^ (n.log2 + 1022) := by
          rw [Nat.mul_assoc, ← pow_add, show 52 - n.log2 + (n.log2 + 1022) = 1074 by omega]
        rw [nearest_of_lt hsmall, hsplit, divHalfEven_mul _ (Nat.two_pow_pos _)]
      · rw [show n.log2 + 1022 = n.log2 - 52 + 1074 by omega, pow_add,
          divHalfEven_mul_right _ _ (Nat.two_pow_pos 1074), nearest, Nat.mul_assoc]
    have hround : double n = round false n := by
      rw [double, ofValue, if_neg hneQ, abs_of_nonneg (Nat.cast_nonneg n),
        decide_eq_false (not_lt.mpr (Nat.cast_nonneg n))]
    have hunits : (n : ℚ) * 2 ^ 1074 = (n * 2 ^ 1074 : ℕ) := by push_cast; rfl
    have hstep : (2 : ℚ) ^ (n.log2 + 1022) = (2 ^ (n.log2 + 1022) : ℕ) := by push_cast; rfl
    rw [hround, round, hunits, Int.floor_natCast, Int.toNat_natCast, hlog, hstep,
      roundHalfEven_div _ (Nat.two_pow_pos _)]
    split
    · next hlt => exact represents_ofBits hbounds.1 hbounds.2 (by omega) hnearest hlt
    · next hge =>
        -- The exponent is too large, and so is the number.
        refine represents_infinity ?_
        have hpow : 2 ^ (1024 + 1074) ≤ nearest n * 2 ^ 1074 := by
          rw [hnearest]
          obtain hlt | hcarry := hbounds.2.lt_or_eq
          · calc 2 ^ (1024 + 1074) ≤ 2 ^ 52 * 2 ^ (n.log2 + 1022) := by
                  rw [← pow_add]
                  exact Nat.pow_le_pow_right two_pos (by omega)
              _ ≤ _ := Nat.mul_le_mul_right _ hbounds.1
          · rw [hcarry, ← pow_add]
            exact Nat.pow_le_pow_right two_pos (by omega)
        rw [pow_add] at hpow
        exact Nat.le_of_mul_le_mul_right hpow (Nat.two_pow_pos _)

/-- A double has the value of the number that it represents. -/
theorem value_of_represents {x : F64} (h : x.Represents n) (hn : n < 2 ^ 1024) : x.value = n := by
  rw [value, units, h.isNegative, (h.magnitude hn).2]
  push_cast
  exact mul_div_cancel_right₀ _ (by positivity)

/-- A double that represents a number is zero exactly if the number is. -/
theorem isZero_of_represents {x : F64} (h : x.Represents n) (hn : n < 2 ^ 1024) :
    x.isZero = decide (n = 0) := by
  rw [isZero, (h.magnitude hn).2, decide_eq_decide, Nat.mul_eq_zero]
  exact or_iff_left (pow_ne_zero _ two_ne_zero)

/-- Numbers are told apart by their doubles, up to infinity. -/
theorem Represents.eq_iff {x y : F64} {m : ℕ} (hx : x.Represents m) (hy : y.Represents n) :
    x = y ↔ m = n ∨ 2 ^ 1024 ≤ m ∧ 2 ^ 1024 ≤ n := by
  have hinfinite : (infinity false).isFinite = false := by decide
  obtain hm | hm := Nat.lt_or_ge m (2 ^ 1024)
  · obtain ⟨hxfinite, hxmagnitude⟩ := hx.magnitude hm
    obtain hn | hn := Nat.lt_or_ge n (2 ^ 1024)
    · obtain ⟨hyfinite, hymagnitude⟩ := hy.magnitude hn
      constructor
      · rintro rfl
        rw [hxmagnitude] at hymagnitude
        exact .inl (Nat.eq_of_mul_eq_mul_right (Nat.two_pow_pos 1074) hymagnitude)
      · rintro (rfl | hlarge)
        · obtain ⟨hexponent, hfraction⟩ :=
            magnitude_injective (hxmagnitude.trans hymagnitude.symm)
          exact fields_ext (hx.isNegative.trans hy.isNegative.symm) hexponent hfraction
        · exact absurd hlarge.1 hm.not_ge
    · rw [hy.infinite hn]
      refine iff_of_false (fun h => ?_) (by omega)
      rw [h, hinfinite] at hxfinite
      cases hxfinite
  · rw [hx.infinite hm]
    obtain hn | hn := Nat.lt_or_ge n (2 ^ 1024)
    · refine iff_of_false (fun h => ?_) (by omega)
      have hyfinite := (hy.magnitude hn).1
      rw [← h, hinfinite] at hyfinite
      cases hyfinite
    · rw [hy.infinite hn]
      exact iff_of_true rfl (.inr ⟨hm, hn⟩)

/-- The double of a natural number is a number. -/
theorem isNaN_double (n : ℕ) : (double n).isNaN = false := isNaN_ofValue _ _

/-- A natural number and what it is rounded to have the same double. -/
theorem double_nearest (n : ℕ) : double (nearest n) = double n :=
  ((represents_double (nearest n)).eq_iff (represents_double n)).mpr (.inl (nearest_nearest n))

/-- **Two natural numbers have the same double** if they are rounded to the same number, or both
beyond the largest double. -/
theorem double_eq_iff {m : ℕ} :
    double m = double n ↔ nearest m = nearest n ∨ 2 ^ 1024 ≤ nearest m ∧ 2 ^ 1024 ≤ nearest n :=
  (represents_double m).eq_iff (represents_double n)

/-! ### Horner's rule -/

/-- `mul_add`: a product and a sum with one rounding. -/
def mulAdd (x y z : F64) : F64 :=
  let negative := x.isNegative ^^ y.isNegative
  if x.isNaN || y.isNaN || z.isNaN then nan
  else if x.isInfinite || y.isInfinite then
    if x.isZero || y.isZero || z.isInfinite && z.isNegative != negative then nan
    else infinity negative
  else if z.isInfinite then z
  else ofValue (x.value * y.value + z.value) (negative && z.isNegative)

/-- A double that represents a number below `2 ^ 1024` is finite. -/
theorem isInfinite_of_represents {x : F64} (h : x.Represents n) (hn : n < 2 ^ 1024) :
    x.isInfinite = false :=
  isInfinite_of_isFinite (h.magnitude hn).1

/-- **A step of Horner's rule** rounds the exact result once. -/
theorem mulAdd_double {w b d : ℕ} (hw : nearest w = w) (hb : b < 2 ^ 53) (hb0 : b ≠ 0)
    (hd : d < 2 ^ 53) : mulAdd (double w) (double b) (double d) = double (w * b + d) := by
  have hsmall {k : ℕ} (hk : k < 2 ^ 53) : k < 2 ^ 1024 :=
    hk.trans (Nat.pow_lt_pow_right one_lt_two (by decide))
  have hrw : (double w).Represents w := by
    have := represents_double w
    rwa [hw] at this
  have hrb : (double b).Represents b := by
    have := represents_double b
    rwa [nearest_of_lt hb] at this
  have hrd : (double d).Represents d := by
    have := represents_double d
    rwa [nearest_of_lt hd] at this
  have hnan : ((double w).isNaN || (double b).isNaN || (double d).isNaN) = false := by
    rw [hrw.isNaN, hrb.isNaN, hrd.isNaN]
    rfl
  simp only [mulAdd, hnan, hrw.isNegative, hrb.isNegative, hrd.isNegative,
    isInfinite_of_represents hrb (hsmall hb), isInfinite_of_represents hrd (hsmall hd),
    isZero_of_represents hrb (hsmall hb), hb0, value_of_represents hrb (hsmall hb),
    value_of_represents hrd (hsmall hd), decide_false, Bool.or_false, Bool.xor_false,
    Bool.and_false, Bool.false_eq_true, if_false]
  obtain hlt | hge := Nat.lt_or_ge w (2 ^ 1024)
  · rw [isInfinite_of_represents hrw hlt, if_neg Bool.false_ne_true,
      value_of_represents hrw hlt, double]
    congr 1
    push_cast
    rfl
  · have hzero : (infinity false).isZero = false := by decide +kernel
    have hinfinite : (infinity false).isInfinite = true := by decide
    have hlarge : 2 ^ 1024 ≤ nearest (w * b + d) := by
      refine two_pow_le_nearest (hge.trans ?_)
      exact (Nat.le_mul_of_pos_right w (Nat.pos_of_ne_zero hb0)).trans (Nat.le_add_right _ _)
    rw [hrw.infinite hge, hzero, hinfinite, if_pos rfl, if_neg Bool.false_ne_true,
      (represents_double (w * b + d)).infinite hlarge]

end F64
