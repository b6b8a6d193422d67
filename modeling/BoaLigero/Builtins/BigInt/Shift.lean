import Mathlib.Algebra.Order.Floor.Ring
import Mathlib.Algebra.Order.Archimedean.Basic
import Mathlib.Data.Rat.Floor
import Mathlib.Data.Nat.Size
import Mathlib.Tactic.Linarith
import Mathlib.Tactic.FieldSimp

/-!
# Shifts of BigInts

`JsBigInt::shift_left` and `shift_right` (`bigint.rs`). A shift amount that fits in a signed
32-bit integer is handed to the big integer library. Beyond that range the result is decided
by the signs of the operands: all bits are shifted out, or the result is too long.

## Main results

* `shiftLeft_of_fits`, `shiftRight_of_fits` — amounts that fit give the mathematical result.
* `conforms_iff` — for which pairs both shifts are the mathematical ones, agree with each other
  under negation of the amount, and reject nothing whose result is short.
-/

namespace BoaLigero.JsBigInt

/-! ### The source -/

/-- The shifts of the big integer library. -/
structure ShiftLibrary where
  shl : ℤ → ℕ → ℤ
  shr : ℤ → ℕ → ℤ
  shl_eq : ∀ x n, shl x n = x * 2 ^ n
  shr_eq : ∀ x n, shr x n = ⌊(x : ℚ) / 2 ^ n⌋

/-- The sign of a big integer (`num_bigint::Sign`). -/
inductive Sign where
  | minus
  | noSign
  | plus
  deriving DecidableEq, Repr

/-- The sign of an integer (`BigInt::sign`). -/
def sign (x : ℤ) : Sign := if x < 0 then .minus else if x = 0 then .noSign else .plus

/-- `to_i32`. -/
def toI32 (n : ℤ) : Option ℤ := if -2 ^ 31 ≤ n ∧ n < 2 ^ 31 then some n else none

/-- A `RangeError`, with its message. -/
structure RangeError where
  message : String
  deriving DecidableEq, Repr

/-- The error of a shift whose result would be too large. -/
def sizeExceeded : RangeError := ⟨"Maximum BigInt size exceeded"⟩

/-- The results of a shift. -/
abbrev JsResult := Except RangeError ℤ

variable (library : ShiftLibrary)

/-- `shift_right`: a shift by a negative number goes to the left. -/
def shiftRight (x y : ℤ) : JsResult :=
  match toI32 y with
  | some n => if 0 < n then .ok (library.shr x n.toNat) else .ok (library.shl x n.natAbs)
  | none =>
    match sign x, sign y with
    | .minus, .plus => .ok (-1)
    | _, .plus => .ok 0
    | _, _ => .error sizeExceeded

/-- `shift_left`: a shift by a negative number goes to the right. -/
def shiftLeft (x y : ℤ) : JsResult :=
  match toI32 y with
  | some n => if 0 < n then .ok (library.shl x n.toNat) else .ok (library.shr x n.natAbs)
  | none =>
    match sign x, sign y with
    | .minus, .minus => .ok (-1)
    | _, .minus => .ok 0
    | _, _ => .error sizeExceeded

/-! ### The mathematical result -/

/-- `x * 2 ^ e`, rounded down. -/
def shifted (x e : ℤ) : ℤ := ⌊(x : ℚ) * (2 : ℚ) ^ e⌋

/-- A shift to the left multiplies with a power of two. -/
theorem shifted_natCast (x : ℤ) (n : ℕ) : shifted x n = x * 2 ^ n := by
  rw [shifted, zpow_natCast]
  exact_mod_cast Int.floor_intCast (R := ℚ) (x * 2 ^ n)

/-- A shift to the right divides by a power of two, and rounds down. -/
theorem shifted_neg_natCast (x : ℤ) (n : ℕ) : shifted x (-n) = ⌊(x : ℚ) / 2 ^ n⌋ := by
  rw [shifted, zpow_neg, zpow_natCast, div_eq_mul_inv]

/-- When all bits are shifted out, the sign is left. -/
def signFill (x : ℤ) : ℤ := if x < 0 then -1 else 0

/-- **All bits are shifted out** exactly when `x` has no more of them than the amount. -/
theorem signFill_eq_shifted_iff (x : ℤ) (n : ℕ) :
    signFill x = shifted x (-n) ↔ -2 ^ n ≤ x ∧ x < 2 ^ n := by
  have hpos : (0 : ℚ) < 2 ^ n := by positivity
  rw [shifted_neg_natCast, signFill]
  split
  · next hneg =>
      have hneg' : (x : ℚ) < 0 := by exact_mod_cast hneg
      rw [eq_comm, Int.floor_eq_iff, le_div_iff₀ hpos, div_lt_iff₀ hpos]
      constructor
      · rintro ⟨hle, -⟩
        refine ⟨?_, lt_trans hneg (by positivity)⟩
        have hle : -(2 : ℚ) ^ n ≤ x := by push_cast at hle; linarith
        exact_mod_cast hle
      · rintro ⟨hle, -⟩
        have hle : -(2 : ℚ) ^ n ≤ x := by exact_mod_cast hle
        constructor
        · push_cast
          linarith
        · push_cast
          linarith
  · next hnonneg =>
      have hnonneg' : (0 : ℚ) ≤ x := by exact_mod_cast not_lt.mp hnonneg
      rw [eq_comm, Int.floor_eq_iff, le_div_iff₀ hpos, div_lt_iff₀ hpos]
      constructor
      · rintro ⟨-, hlt⟩
        have hlt : (x : ℚ) < 2 ^ n := by push_cast at hlt; linarith
        refine ⟨?_, by exact_mod_cast hlt⟩
        have : (0 : ℤ) < 2 ^ n := by positivity
        linarith [not_lt.mp hnonneg]
      · rintro ⟨-, hlt⟩
        have hlt : (x : ℚ) < 2 ^ n := by exact_mod_cast hlt
        constructor
        · push_cast
          linarith
        · push_cast
          linarith

/-! ### The results of the code -/

/-- A number that fits into 32 bits is converted. -/
theorem toI32_of_fits {n : ℤ} (hle : -2 ^ 31 ≤ n) (hlt : n < 2 ^ 31) : toI32 n = some n :=
  if_pos ⟨hle, hlt⟩

/-- A number from `2 ^ 31` on does not fit. -/
theorem toI32_of_ge {n : ℤ} (h : 2 ^ 31 ≤ n) : toI32 n = none :=
  if_neg fun hfits => absurd hfits.2 (not_lt.mpr h)

/-- A number below `-2 ^ 31` does not fit. -/
theorem toI32_of_lt {n : ℤ} (h : n < -2 ^ 31) : toI32 n = none :=
  if_neg fun hfits => absurd hfits.1 (not_le.mpr h)

/-- A positive number has the positive sign. -/
theorem sign_of_pos {n : ℤ} (h : 0 < n) : sign n = .plus := by
  rw [sign, if_neg (by omega), if_neg (by omega)]

/-- A negative number has the negative sign. -/
theorem sign_of_neg {n : ℤ} (h : n < 0) : sign n = .minus := if_pos h

/-- **A left shift by an amount that fits** is the mathematical one. -/
theorem shiftLeft_of_fits (x : ℤ) {y : ℤ} (hle : -2 ^ 31 ≤ y) (hlt : y < 2 ^ 31) :
    shiftLeft library x y = .ok (shifted x y) := by
  rw [shiftLeft, toI32_of_fits hle hlt]
  by_cases hpos : 0 < y
  · have hy : y = (y.toNat : ℤ) := by omega
    simp only [if_pos hpos, library.shl_eq]
    rw [hy, shifted_natCast, Int.toNat_natCast]
  · have hy : y = -(y.natAbs : ℤ) := by omega
    simp only [if_neg hpos, library.shr_eq]
    rw [← shifted_neg_natCast, ← hy]

/-- **A right shift by an amount that fits** is the mathematical one. -/
theorem shiftRight_of_fits (x : ℤ) {y : ℤ} (hle : -2 ^ 31 ≤ y) (hlt : y < 2 ^ 31) :
    shiftRight library x y = .ok (shifted x (-y)) := by
  rw [shiftRight, toI32_of_fits hle hlt]
  by_cases hpos : 0 < y
  · have hy : y = (y.toNat : ℤ) := by omega
    simp only [if_pos hpos, library.shr_eq]
    rw [← shifted_neg_natCast, ← hy]
  · have hy : -y = (y.natAbs : ℤ) := by omega
    simp only [if_neg hpos, library.shl_eq]
    rw [hy, shifted_natCast]

/-- A shift to the left by `2 ^ 31` or more is an error, whatever is shifted. -/
theorem shiftLeft_of_ge (x : ℤ) {y : ℤ} (h : 2 ^ 31 ≤ y) :
    shiftLeft library x y = .error sizeExceeded := by
  have hsign : sign y = .plus := sign_of_pos (by omega)
  simp only [shiftLeft, toI32_of_ge h, hsign]
  cases sign x <;> rfl

/-- A shift to the right by less than `-2 ^ 31` is an error, whatever is shifted. -/
theorem shiftRight_of_lt (x : ℤ) {y : ℤ} (h : y < -2 ^ 31) :
    shiftRight library x y = .error sizeExceeded := by
  have hsign : sign y = .minus := sign_of_neg (by omega)
  simp only [shiftRight, toI32_of_lt h, hsign]
  cases sign x <;> rfl

/-- A shift to the left by less than `-2 ^ 31` leaves the sign only. -/
theorem shiftLeft_of_lt (x : ℤ) {y : ℤ} (h : y < -2 ^ 31) :
    shiftLeft library x y = .ok (signFill x) := by
  simp only [shiftLeft, toI32_of_lt h, sign, signFill]
  grind

/-- A shift to the right by `2 ^ 31` or more leaves the sign only. -/
theorem shiftRight_of_ge (x : ℤ) {y : ℤ} (h : 2 ^ 31 ≤ y) :
    shiftRight library x y = .ok (signFill x) := by
  simp only [shiftRight, toI32_of_ge h, sign, signFill]
  grind

/-! ### Both shifts together -/

/-- A result is short: `0`, `-1`, or of no more bits than `x`. -/
def IsShort (x r : ℤ) : Prop := r = 0 ∨ r = -1 ∨ r.natAbs.size ≤ x.natAbs.size

/-- A shift gives the mathematical result or none, and gives it when it is short. -/
def Computes (x exact : ℤ) (result : JsResult) : Prop :=
  (∀ r, result = .ok r → r = exact) ∧ (IsShort x exact → ∃ r, result = .ok r)

/-- What both shifts by `y` have to do, and that they agree when the amount is negated. -/
structure Conforms (x y : ℤ) : Prop where
  left : Computes x (shifted x y) (shiftLeft library x y)
  right : Computes x (shifted x (-y)) (shiftRight library x y)
  symm : shiftLeft library x y = shiftRight library x (-y)

/-- A result is right exactly if it is the exact one. -/
theorem computes_ok_iff (x exact r : ℤ) : Computes x exact (.ok r) ↔ r = exact := by
  constructor
  · rintro ⟨heq, -⟩
    exact heq r rfl
  · rintro rfl
    exact ⟨fun r' hr' => (Except.ok.inj hr').symm, fun _ => ⟨r, rfl⟩⟩

/-- A shift by a positive amount is short for zero only. -/
theorem isShort_shifted_iff (x : ℤ) {n : ℕ} (hn : 0 < n) : IsShort x (shifted x n) ↔ x = 0 := by
  rw [shifted_natCast, IsShort]
  constructor
  · intro h
    by_contra hx
    have hpow : (2 : ℤ) ^ n ≠ 0 := by positivity
    rcases h with hzero | hone | hsize
    · exact (mul_ne_zero hx hpow) hzero
    · have hdvd : (2 : ℤ) ∣ -1 := hone ▸ (dvd_pow_self 2 hn.ne').mul_left x
      omega
    · rw [Int.natAbs_mul, Int.natAbs_pow, show (2 : ℤ).natAbs = 2 from rfl,
        ← Nat.shiftLeft_eq, Nat.size_shiftLeft (Int.natAbs_ne_zero.mpr hx)] at hsize
      omega
  · rintro rfl
    exact .inl (zero_mul _)

/-- An error is right for a shift to the left by a positive number unless zero is shifted. -/
theorem computes_error_iff (x : ℤ) {n : ℕ} (hn : 0 < n) (e : RangeError) :
    Computes x (shifted x n) (.error e) ↔ x ≠ 0 := by
  rw [Computes, isShort_shifted_iff x hn]
  constructor
  · rintro ⟨-, h⟩ hx
    obtain ⟨r, hr⟩ := h hx
    cases hr
  · intro hx
    refine ⟨?_, fun h => absurd h hx⟩
    intro r hr
    cases hr

/-- Both shifts conform exactly if each is right and the one is the other with the sign changed. -/
theorem conforms_iff_and (x y : ℤ) : Conforms library x y ↔
    Computes x (shifted x y) (shiftLeft library x y) ∧
      Computes x (shifted x (-y)) (shiftRight library x y) ∧
        shiftLeft library x y = shiftRight library x (-y) :=
  ⟨fun h => ⟨h.left, h.right, h.symm⟩, fun h => ⟨h.1, h.2.1, h.2.2⟩⟩

/-- The pairs that are shifted as they should be: the amount is less than `2 ^ 31` in absolute
value; or all bits of `x` are shifted out to the right, and the shift to the left is too long,
where the amount `2 ^ 31` is excepted, and zero for all amounts but `-2 ^ 31`. -/
def Shiftable (x y : ℤ) : Prop :=
  -2 ^ 31 < y ∧ y < 2 ^ 31 ∨
    y ≠ 2 ^ 31 ∧ (-2 ^ y.natAbs ≤ x ∧ x < 2 ^ y.natAbs) ∧ (x = 0 → y = -2 ^ 31)

/-- An amount that is too small to fit. -/
theorem conforms_iff_of_lt (x : ℤ) {y : ℤ} (h : y < -2 ^ 31) : Conforms library x y ↔
    (-2 ^ y.natAbs ≤ x ∧ x < 2 ^ y.natAbs) ∧ x ≠ 0 := by
  have hy : y = -(y.natAbs : ℤ) := by omega
  have hneg : -y = (y.natAbs : ℤ) := by omega
  rw [conforms_iff_and, shiftLeft_of_lt library x h, shiftRight_of_lt library x h,
    shiftRight_of_ge library x (by omega), computes_ok_iff, hneg,
    computes_error_iff x (by omega), ← signFill_eq_shifted_iff x y.natAbs, ← hy]
  simp

/-- An amount that is too large to fit, and whose negation is too small. -/
theorem conforms_iff_of_gt (x : ℤ) {y : ℤ} (h : 2 ^ 31 < y) : Conforms library x y ↔
    (-2 ^ y.natAbs ≤ x ∧ x < 2 ^ y.natAbs) ∧ x ≠ 0 := by
  have hy : y = (y.natAbs : ℤ) := by omega
  have hneg : -y = -(y.natAbs : ℤ) := by omega
  have hleft : Computes x (shifted x y) (.error sizeExceeded) ↔ x ≠ 0 := by
    rw [hy]
    exact computes_error_iff x (by omega) _
  rw [conforms_iff_and, shiftLeft_of_ge library x h.le, shiftRight_of_ge library x h.le,
    shiftRight_of_lt library x (by omega), computes_ok_iff, hleft, hneg,
    signFill_eq_shifted_iff]
  simp [and_comm]

/-- The least amount that fits: its negation does not. -/
theorem conforms_iff_min (x : ℤ) {y : ℤ} (h : y = -2 ^ 31) : Conforms library x y ↔
    -2 ^ y.natAbs ≤ x ∧ x < 2 ^ y.natAbs := by
  have hy : y = -(y.natAbs : ℤ) := by omega
  rw [conforms_iff_and, shiftLeft_of_fits library x h.ge (by omega),
    shiftRight_of_fits library x h.ge (by omega), computes_ok_iff, computes_ok_iff,
    shiftRight_of_ge library x (by omega), ← signFill_eq_shifted_iff x y.natAbs, ← hy,
    Except.ok.injEq]
  constructor
  · rintro ⟨-, -, heq⟩
    exact heq.symm
  · intro heq
    exact ⟨rfl, rfl, heq.symm⟩

/-- The shift to the left rejects this amount, and the shift to the right does not reject its
negation. -/
theorem not_conforms_max (x : ℤ) : ¬ Conforms library x (2 ^ 31) := by
  intro h
  have hsymm := h.symm
  rw [shiftLeft_of_ge library x le_rfl,
    shiftRight_of_fits library x le_rfl (by norm_num)] at hsymm
  cases hsymm

/-- An amount that fits together with its negation. -/
theorem conforms_of_fits (x : ℤ) {y : ℤ} (hlt : -2 ^ 31 < y) (hlt' : y < 2 ^ 31) :
    Conforms library x y := by
  rw [conforms_iff_and, shiftLeft_of_fits library x hlt.le hlt',
    shiftRight_of_fits library x hlt.le hlt',
    shiftRight_of_fits library x (by omega) (by omega), computes_ok_iff, computes_ok_iff,
    neg_neg]
  exact ⟨rfl, rfl, rfl⟩

/-- **When the shifts conform**: both give the mathematical result or none, give it when it is
short, and agree with each other, exactly for the shiftable pairs. -/
theorem conforms_iff (x y : ℤ) : Conforms library x y ↔ Shiftable x y := by
  rw [Shiftable]
  rcases lt_trichotomy y (-2 ^ 31) with hlt | heq | hgt
  · rw [conforms_iff_of_lt library x hlt]
    have hne : y ≠ -2 ^ 31 := hlt.ne
    have hne' : y ≠ 2 ^ 31 := by omega
    have hfits : ¬ (-2 ^ 31 < y ∧ y < 2 ^ 31) := by omega
    tauto
  · rw [conforms_iff_min library x heq]
    have hne' : y ≠ 2 ^ 31 := by omega
    have hfits : ¬ (-2 ^ 31 < y ∧ y < 2 ^ 31) := by omega
    tauto
  · rcases lt_trichotomy y (2 ^ 31) with hlt | rfl | hgt'
    · exact iff_of_true (conforms_of_fits library x hgt hlt) (.inl ⟨hgt, hlt⟩)
    · refine iff_of_false (not_conforms_max library x) ?_
      rintro (⟨-, h⟩ | ⟨h, -⟩)
      · exact lt_irrefl _ h
      · exact h rfl
    · rw [conforms_iff_of_gt library x hgt']
      have hne : y ≠ -2 ^ 31 := hgt.ne'
      have hne' : y ≠ 2 ^ 31 := hgt'.ne'
      have hfits : ¬ (-2 ^ 31 < y ∧ y < 2 ^ 31) := by omega
      tauto

/-- `0n << 2147483648n` is rejected, though its result is `0n`. -/
theorem not_always_conforms : ¬ ∀ (library : ShiftLibrary) (x y : ℤ), Conforms library x y := by
  intro h
  let library : ShiftLibrary :=
    ⟨fun x n => x * 2 ^ n, fun x n => ⌊(x : ℚ) / 2 ^ n⌋, fun _ _ => rfl, fun _ _ => rfl⟩
  have hleft := (h library 0 (2 ^ 31)).left
  rw [shiftLeft_of_ge library 0 le_rfl] at hleft
  obtain ⟨r, hr⟩ := hleft.2 (.inl (by simp [shifted]))
  cases hr

end BoaLigero.JsBigInt
