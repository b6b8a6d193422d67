import BoaLigero.String.FixedDigits
import BoaLigero.Util.DoubleArithmetic
import BoaLigero.Util.SignificantDigits

/-!
# Number.prototype.toPrecision

`Number::to_precision` (`builtins/number/mod.rs`), which takes its digits from the text of a number
with a hundred decimal places: it finds the exponent in the text, cuts the text at the precision and
rounds the digits that are left by hand.

A hundred places are not all places of a small number, so the digits are those of the number rounded
to a hundred places first.

## Main results

* `precisionDigits_eq` — the digits and the exponent of the text.
* `toPrecision_conforms_iff` — they are the nearest ones unless the rounding to a hundred places
  takes the number across the midpoint of two neighbours.
-/

namespace BoaLigero.Number

open F64 NearestIn SignificantDigits

/-! ### The source -/

/-- The numbers that `to_integer_or_infinity` delivers. -/
inductive IntegerOrInfinity
  | negativeInfinity
  | integer (n : Int64)
  | positiveInfinity

/-- A failed call: an error that is thrown, or a failed `expect` or index. -/
inductive Failure
  | rangeError (message : String)
  | panic
  deriving DecidableEq

/-- The text of a multiple of the last decimal place. -/
def fixedText (places n : ℕ) : List Char :=
  Nat.toDigits 10 (n / 10 ^ places) ++ '.' :: fixedDigits places n

/-- `format!` of a number that is not negative with a number of decimal places: the nearest decimal
of that many places, ties to even. -/
def formatFixed (places : ℕ) (x : F64) : List Char :=
  fixedText places (roundHalfEven (x.value * 10 ^ places))

/-- `String::split_off`: what is in front of an index and what is behind. -/
def splitOff (s : List Char) (index : ℕ) : Option (List Char × List Char) :=
  if index ≤ s.length then some (s.take index, s.drop index) else none

/-- `String::insert`. -/
def insertAt (s : List Char) (index : ℕ) (c : Char) : Option (List Char) :=
  if index ≤ s.length then some (s.take index ++ c :: s.drop index) else none

/-- `i32::to_string`. -/
def i32ToString (n : ℤ) : List Char :=
  if n < 0 then '-' :: Nat.toDigits 10 n.natAbs else Nat.toDigits 10 n.natAbs

/-- The loop of `flt_str_to_exp`. -/
def fltStrToExpLoop : List Char → ℤ → Bool → Bool → Option ℤ
  | [], _, _, _ => none
  | c :: rest, i, nonZero, dot =>
      if c = '.' then
        if nonZero then some (i - 1) else fltStrToExpLoop rest (i + 1) nonZero true
      else if c ≠ '0' then
        if dot then some (1 - i) else fltStrToExpLoop rest (i + 1) true dot
      else fltStrToExpLoop rest (i + 1) nonZero dot

/-- `flt_str_to_exp`: the decimal exponent of the number that is written without one. -/
def fltStrToExp (flt : List Char) : ℤ :=
  (fltStrToExpLoop flt 0 false false).getD (flt.length - 1)

/-- The loop that propagates an increment backward, over the characters from the last one on. -/
def propagate : List Char → List Char → Bool → List Char × Bool
  | [], replacement, propagated => (replacement, propagated)
  | c :: rest, replacement, propagated =>
      let d :=
        if propagated then c else if '0' ≤ c ∧ c ≤ '8' then Char.ofNat (c.toNat + 1) else '0'
      propagate rest (replacement ++ [d]) (if d ≠ '0' then true else propagated)

/-- `round_to_precision`; the digits, and whether there is a digit more. -/
def roundToPrecision (digits : List Char) (precision : ℕ) : Option (List Char × Bool) :=
  if digits.length > precision then do
    let (digits, toRound) ← splitOff digits precision
    let last ← digits.getLast?
    let digits := digits.dropLast
    let digit := if toRound.head?.any (· > '4') then Char.ofNat (last.toNat + 1) else last
    if digit = ':' then
      let (replacement, propagated) := propagate digits.reverse ['0'] false
      if propagated then some (replacement.reverse, !propagated)
      else some ('1' :: replacement.tail.reverse, !propagated)
    else some (digits ++ [digit], false)
  else some (digits ++ List.replicate (precision - digits.length) '0', false)

/-- Step 10b: the relevant digits of a text. -/
def relevantDigits (suffix : List Char) (exponent : ℤ) : Option (List Char) :=
  if exponent < 0 then (splitOff suffix (1 - exponent).toNat).map Prod.snd
  else some (suffix.erase '.')

/-- Steps 9, 10a and 10b: the digits and the exponent of a number that is not negative. -/
def precisionDigits (thisNum : F64) (precision : ℕ) : Option (List Char × ℤ) :=
  if thisNum.isZero then some (List.replicate precision '0', 0)
  else do
    let suffix := formatFixed 100 thisNum
    let exponent := fltStrToExp suffix
    let suffix ← relevantDigits suffix exponent
    let (suffix, carried) ← roundToPrecision suffix precision
    return (suffix, if carried then exponent + 1 else exponent)

/-- Step 10c: scientific notation. -/
def scientific (suffix : List Char) (precision : ℕ) (exponent : ℤ) : Option (List Char) := do
  let suffix ← if precision > 1 then insertAt suffix 1 '.' else some suffix
  let suffix := suffix ++ ['e']
  let suffix := if exponent ≥ precision then suffix ++ ['+'] else suffix
  return suffix ++ i32ToString exponent

/-- Steps 11 to 14: fixed notation. -/
def fixedNotation (pre suffix : List Char) (precision : ℕ) (exponent : ℤ) : Option (List Char) :=
  let eInc := exponent + 1
  if eInc = precision then some (pre ++ suffix)
  else if exponent ≥ 0 then (insertAt suffix eInc.toNat '.').map (pre ++ ·)
  else some (pre ++ '0' :: '.' :: List.replicate (-eInc).toNat '0' ++ suffix)

/-- Steps 7 to 14. -/
def precisionText (thisNum : F64) (precision : ℕ) : Option (List Char) := do
  let negative := thisNum.lt (zero false)
  let pre := if negative then ['-'] else []
  let thisNum := if negative then thisNum.neg else thisNum
  let (suffix, exponent) ← precisionDigits thisNum precision
  if !thisNum.isZero ∧ (exponent < -6 ∨ exponent ≥ precision) then
    (scientific suffix precision exponent).map (pre ++ ·)
  else fixedNotation pre suffix precision exponent

/-- `to_precision` of a number; `none` is the precision `undefined`. -/
def toPrecision (toString : F64 → List Char) (thisNum : F64) :
    Option IntegerOrInfinity → Except Failure (List Char)
  | none => .ok (toString thisNum)
  | some precision =>
      if !thisNum.isFinite then .ok (toString thisNum)
      else
        match precision with
        | .integer x =>
            if 1 ≤ x.toInt ∧ x.toInt ≤ 100 then
              match precisionText thisNum x.toInt.toNat with
              | some text => .ok text
              | none => .error .panic
            else
              .error (.rangeError "precision must be an integer at least 1 and no greater than 100")
        | .negativeInfinity | .positiveInfinity =>
            .error (.rangeError "precision must be an integer at least 1 and no greater than 100")

/-! ### The language specification -/

/-- `n` and `e` of steps 9 and 10a, for a number that is not negative. -/
def IsPrecision (p : ℕ) (x : ℚ) (n : ℕ) (e : ℤ) : Prop :=
  if x = 0 then n = 0 ∧ e = 0
  else 10 ^ (p - 1) ≤ n ∧ n < 10 ^ p ∧ IsNearest (significant 10 p) x (n * 10 ^ (e - p + 1))

/-- The digits `m` of steps 9 and 10b. -/
def specDigits (p n : ℕ) : List Char := if n = 0 then List.replicate p '0' else Nat.toDigits 10 n

/-- Steps 10c to 13: the layout of digits `m` with an exponent. -/
def specLayout (p : ℕ) (m : List Char) (e : ℤ) : List Char :=
  if e < -6 ∨ p ≤ e then
    (if p = 1 then m else m.take 1 ++ '.' :: m.drop 1) ++
      'e' :: (if 0 < e then '+' else '-') :: Nat.toDigits 10 e.natAbs
  else if e = p - 1 then m
  else if 0 ≤ e then m.take (e + 1).toNat ++ '.' :: m.drop (e + 1).toNat
  else '0' :: '.' :: List.replicate (-(e + 1)).toNat '0' ++ m

/-- The digits and the exponent are the specified ones, and the result is laid out from them. -/
def Conforms (x : F64) (p : ℕ) : Prop :=
  ∃ n e, IsPrecision p |x.value| n e ∧
    precisionDigits (if x.value < 0 then x.neg else x) p = some (specDigits p n, e) ∧
    ∀ toString (precision : Int64), precision.toInt = p →
      toPrecision toString x (some (.integer precision)) =
        .ok ((if x.value < 0 then ['-'] else []) ++ specLayout p (specDigits p n) e)

variable {c : Char} {s rest digits : List Char} {i j k n m p places : ℕ} {e : ℤ} {x : F64}

/-! ### The exponent of a text -/

/-- With digits in front of the point, the exponent is one less than how many they are. -/
theorem fltStrToExpLoop_digits (h : ∀ c ∈ s, c ≠ '.') (rest : List Char) (i : ℤ) :
    fltStrToExpLoop (s ++ '.' :: rest) i true false = some (i + s.length - 1) := by
  induction s generalizing i with
  | nil => simp [fltStrToExpLoop]
  | cons c s ih =>
      obtain ⟨hc, hs⟩ := List.forall_mem_cons.mp h
      rw [List.cons_append, fltStrToExpLoop, if_neg hc]
      split <;> rw [ih hs] <;> simp <;> omega

/-- With zeros behind the point, the exponent is minus one more than how many there are before
another digit. -/
theorem fltStrToExpLoop_zeros (hc : c ≠ '0') (hc' : c ≠ '.') (rest : List Char) (k : ℕ) (i : ℤ) :
    fltStrToExpLoop (List.replicate k '0' ++ c :: rest) i false true = some (1 - (i + k)) := by
  induction k generalizing i with
  | zero => simp [fltStrToExpLoop, hc, hc']
  | succ k ih =>
      rw [List.replicate_succ, List.cons_append, fltStrToExpLoop, if_neg (by decide),
        if_neg (by decide), ih]
      push_cast
      rw [add_assoc, add_comm 1]

/-- A text of zeros has no digit that counts, so that no exponent is found. -/
theorem fltStrToExpLoop_zero (k : ℕ) (i : ℤ) :
    fltStrToExpLoop (List.replicate k '0') i false true = none := by
  induction k generalizing i with
  | zero => rfl
  | succ k ih =>
      rw [List.replicate_succ, fltStrToExpLoop, if_neg (by decide), if_neg (by decide), ih]

/-- A text with digits in front of the dot. -/
theorem fixedText_of_le (hlow : 10 ^ j ≤ n / 10 ^ places) (hhigh : n / 10 ^ places < 10 ^ (j + 1)) :
    fltStrToExp (fixedText places n) = j ∧
      relevantDigits (fixedText places n) j = some (fixedDigits (j + 1 + places) n) := by
  obtain ⟨c, rest, heq, hzero, hdot, hrest⟩ := exists_first_digit hlow hhigh
  have hlength : rest.length = j := by
    have := congrArg List.length heq
    rw [length_fixedDigits, List.length_cons] at this
    omega
  have htext : fixedText places n = c :: (rest ++ '.' :: fixedDigits places n) := by
    rw [fixedText, toDigits_eq_fixedDigits hlow hhigh, heq, List.cons_append]
  constructor
  · rw [fltStrToExp, htext, fltStrToExpLoop, if_neg hdot, if_pos hzero, if_neg (by decide),
      fltStrToExpLoop_digits hrest, Option.getD_some, hlength]
    omega
  · have herase : (fixedText places n).erase '.' = c :: (rest ++ fixedDigits places n) := by
      rw [htext, List.erase_cons_tail (by simpa using hdot),
        List.erase_append_right _ (fun hmem => hrest _ hmem rfl), List.erase_cons_head]
    rw [relevantDigits, if_neg (by omega), herase, fixedDigits_add, heq, List.cons_append]

/-- A text with zeros in front of the digits. -/
theorem fixedText_of_lt (hlow : 10 ^ k ≤ n) (hhigh : n < 10 ^ (k + 1)) (hk : k < places) :
    fltStrToExp (fixedText places n) = k - places ∧
      relevantDigits (fixedText places n) (k - places) = some (fixedDigits (k + 1) n) := by
  obtain ⟨c, rest, heq, hzero, hdot, -⟩ := exists_first_digit hlow hhigh
  have hlt : n < 10 ^ places := hhigh.trans_le (Nat.pow_le_pow_right (by decide) hk)
  obtain ⟨z, rfl⟩ : ∃ z, places = z + (k + 1) := ⟨places - (k + 1), by omega⟩
  have htext : fixedText (z + (k + 1)) n =
      '0' :: '.' :: (List.replicate z '0' ++ fixedDigits (k + 1) n) := by
    rw [fixedText, Nat.div_eq_of_lt hlt, Nat.toDigits_zero, fixedDigits_of_lt hhigh]
    rfl
  constructor
  · rw [fltStrToExp, htext, heq, fltStrToExpLoop, if_neg (by decide), if_neg (by decide),
      fltStrToExpLoop, if_pos rfl, if_neg (by decide), fltStrToExpLoop_zeros hzero hdot]
    push_cast
    rw [Option.getD_some]
    omega
  · have hindex : (1 - ((k : ℤ) - (z + (k + 1) : ℕ))).toNat = z + 2 := by omega
    rw [relevantDigits, if_pos (by omega), hindex, splitOff, if_pos]
    · rw [htext, Option.map_some, List.drop_succ_cons, List.drop_succ_cons, List.drop_left']
      rw [List.length_replicate]
    · rw [htext]
      simp only [List.length_cons, List.length_append, List.length_replicate, length_fixedDigits]
      omega

/-- **The digits and the exponent of a text.** -/
theorem fixedText_digits (hlow : 10 ^ k ≤ n) (hhigh : n < 10 ^ (k + 1)) (places : ℕ) :
    fltStrToExp (fixedText places n) = k - places ∧
      relevantDigits (fixedText places n) (k - places) = some (fixedDigits (k + 1) n) := by
  obtain hlt | hle := Nat.lt_or_ge k places
  · exact fixedText_of_lt hlow hhigh hlt
  · obtain ⟨j, rfl⟩ := Nat.exists_eq_add_of_le' hle
    have hpos : 0 < 10 ^ places := Nat.pow_pos (by decide)
    have h := @fixedText_of_le j n places
      ((Nat.le_div_iff_mul_le hpos).mpr (by rwa [← Nat.pow_add]))
      ((Nat.div_lt_iff_lt_mul hpos).mpr (by rwa [← Nat.pow_add, Nat.add_right_comm]))
    rwa [Nat.add_right_comm, show ((j + places : ℕ) : ℤ) - places = j by omega]

/-- The text of zero has no exponent. -/
theorem fixedText_zero (places : ℕ) : fltStrToExp (fixedText places 0) = places + 1 ∧
    relevantDigits (fixedText places 0) (places + 1) = some (List.replicate (places + 1) '0') := by
  have htext : fixedText places 0 = '0' :: '.' :: List.replicate places '0' := by
    rw [fixedText, Nat.zero_div, Nat.toDigits_zero, fixedDigits_zero]
    rfl
  constructor
  · rw [fltStrToExp, htext, fltStrToExpLoop, if_neg (by decide), if_neg (by decide),
      fltStrToExpLoop, if_pos rfl, if_neg (by decide), fltStrToExpLoop_zero]
    simp
  · rw [relevantDigits, if_neg (by omega), htext]
    rfl

/-! ### Rounding by hand -/

/-- The digit after a digit below nine is the next one, and neither `0` nor the character behind
`9`. -/
theorem digitChar_succ (h : n < 9) : ('0' ≤ n.digitChar ∧ n.digitChar ≤ '8') ∧
    Char.ofNat (n.digitChar.toNat + 1) = (n + 1).digitChar ∧ (n + 1).digitChar ≠ '0' ∧
    (n + 1).digitChar ≠ ':' := by
  revert n
  decide

/-- Rounding looks at a digit: one from five on is above `'4'`. -/
theorem digitChar_gt_iff (h : n < 10) : n.digitChar > '4' ↔ 5 ≤ n := by
  revert n
  decide

/-- No digit is the character behind `9`, which stands for a carry. -/
theorem digitChar_ne_colon (h : n < 10) : n.digitChar ≠ ':' := by
  revert n
  decide

/-- Once there is nothing to carry, the rest of the digits is copied. -/
theorem propagate_true (s replacement : List Char) :
    propagate s replacement true = (replacement ++ s, true) := by
  induction s generalizing replacement with
  | nil => simp [propagate]
  | cons c s ih => simp [propagate, ih]

/-- The last digit of a fixed number of digits comes first when they are reversed. -/
theorem reverse_fixedDigits_succ (k n : ℕ) :
    (fixedDigits (k + 1) n).reverse = (n % 10).digitChar :: (fixedDigits k (n / 10)).reverse := by
  rw [fixedDigits, List.reverse_append, List.reverse_singleton, List.singleton_append]

/-- **The loop adds one** to the digits, unless all of them are nines. -/
theorem propagate_fixedDigits (k n : ℕ) (replacement : List Char) :
    propagate (fixedDigits k n).reverse replacement false =
      if n % 10 ^ k + 1 = 10 ^ k then (replacement ++ List.replicate k '0', false)
      else (replacement ++ (fixedDigits k (n + 1)).reverse, true) := by
  induction k generalizing n replacement with
  | zero => simp [fixedDigits, propagate, Nat.mod_one]
  | succ k ih =>
      have hmod : n % 10 ^ (k + 1) = n % 10 + 10 * (n / 10 % 10 ^ k) := by
        rw [Nat.pow_succ', Nat.mod_mul]
      rw [reverse_fixedDigits_succ, reverse_fixedDigits_succ, propagate, hmod]
      by_cases hnine : n % 10 = 9
      · rw [hnine, if_neg (by decide), if_neg (by decide), if_neg (by decide), ih,
          show (n + 1) / 10 = n / 10 + 1 by omega, show (n + 1) % 10 = 0 by omega]
        have hiff : n / 10 % 10 ^ k + 1 = 10 ^ k ↔
            9 + 10 * (n / 10 % 10 ^ k) + 1 = 10 ^ (k + 1) := by
          rw [Nat.pow_succ']
          omega
        simp only [hiff, List.append_assoc, List.singleton_append, List.replicate_succ]
        rfl
      · obtain ⟨hrange, hsucc, hne, -⟩ := digitChar_succ (n := n % 10) (by omega)
        rw [if_neg (by decide), if_pos hrange, hsucc, if_pos hne, propagate_true, if_neg,
          show (n + 1) / 10 = n / 10 by omega, show (n + 1) % 10 = n % 10 + 1 by omega,
          List.append_assoc, List.singleton_append]
        rw [Nat.pow_succ']
        omega

/-- **More digits than the precision** are cut off and rounded half up. -/
theorem roundToPrecision_of_gt (hn : n / 10 ^ (i + 1) < 10 ^ (j + 1)) :
    roundToPrecision (fixedDigits (j + 1 + (i + 1)) n) (j + 1) =
      if 5 ≤ n / 10 ^ i % 10 then
        if n / 10 ^ (i + 1) + 1 = 10 ^ (j + 1) then some (fixedDigits (j + 1) (10 ^ j), true)
        else some (fixedDigits (j + 1) (n / 10 ^ (i + 1) + 1), false)
      else some (fixedDigits (j + 1) (n / 10 ^ (i + 1)), false) := by
  have hsplit : splitOff (fixedDigits (j + 1 + (i + 1)) n) (j + 1) =
      some (fixedDigits (j + 1) (n / 10 ^ (i + 1)), fixedDigits (i + 1) n) := by
    rw [splitOff, if_pos (by rw [length_fixedDigits]; omega), fixedDigits_add,
      List.take_left' (length_fixedDigits _ _), List.drop_left' (length_fixedDigits _ _)]
  have hhead : (fixedDigits (i + 1) n).head?.any (· > '4') = decide (5 ≤ n / 10 ^ i % 10) := by
    rw [Nat.add_comm i, fixedDigits_add]
    simp only [fixedDigits, List.nil_append, List.singleton_append, List.head?_cons,
      Option.any_some, digitChar_gt_iff (Nat.mod_lt _ (show 0 < 10 by decide))]
  rw [roundToPrecision, if_pos (by rw [length_fixedDigits]; omega), hsplit]
  generalize n / 10 ^ (i + 1) = m at hn
  simp only [Option.bind_eq_bind, Option.bind_some, hhead, decide_eq_true_eq]
  rw [show fixedDigits (j + 1) m = fixedDigits j (m / 10) ++ [(m % 10).digitChar] from rfl,
    List.getLast?_concat, Option.bind_some, List.dropLast_concat]
  by_cases hup : 5 ≤ n / 10 ^ i % 10
  · simp only [if_pos hup]
    by_cases hnine : m % 10 = 9
    · have hdiv : m / 10 % 10 ^ j = m / 10 :=
        Nat.mod_eq_of_lt (Nat.div_lt_of_lt_mul (by rwa [← Nat.pow_succ']))
      rw [hnine, if_pos (by decide), propagate_fixedDigits, hdiv]
      by_cases hall : m / 10 + 1 = 10 ^ j
      · have hpow : m + 1 = 10 ^ (j + 1) := by
          rw [Nat.pow_succ']
          omega
        have hdigits : fixedDigits (j + 1) (10 ^ j) = '1' :: List.replicate j '0' := by
          have := fixedDigits_add_mul_pow 1 j 1
          rwa [Nat.one_mul, Nat.add_comm] at this
        rw [if_pos hall, if_pos hpow, hdigits]
        simp
      · have hpow : m + 1 ≠ 10 ^ (j + 1) := by
          rw [Nat.pow_succ']
          omega
        have hdigits : fixedDigits (j + 1) (m + 1) = fixedDigits j (m / 10 + 1) ++ ['0'] := by
          rw [fixedDigits, show (m + 1) / 10 = m / 10 + 1 by omega,
            show (m + 1) % 10 = 0 by omega]
          rfl
        rw [if_neg hall, if_neg hpow, hdigits]
        simp
    · obtain ⟨-, hsucc, -, hcolon⟩ := digitChar_succ (n := m % 10) (by omega)
      rw [hsucc, if_neg hcolon, if_neg (by rw [Nat.pow_succ']; omega), fixedDigits,
        show (m + 1) / 10 = m / 10 by omega, show (m + 1) % 10 = m % 10 + 1 by omega]
  · simp only [if_neg hup]
    rw [if_neg (digitChar_ne_colon (Nat.mod_lt _ (by decide)))]

/-- Fewer digits are filled up with zeros. -/
theorem roundToPrecision_of_le (hk : k ≤ p) :
    roundToPrecision (fixedDigits k n) p = some (fixedDigits p (n * 10 ^ (p - k)), false) := by
  obtain ⟨j, rfl⟩ := Nat.exists_eq_add_of_le hk
  rw [roundToPrecision, if_neg (by rw [length_fixedDigits]; omega), length_fixedDigits,
    Nat.add_sub_cancel_left, fixedDigits_add_mul_pow]

/-! ### The nearest digits -/

/-- A number of decimal places, as a rational number. -/
def placed (places n : ℕ) : ℚ := n * 10 ^ (-(places : ℤ))

/-- Digits that stand further to the left denote as much as more digits that end at the last place.
-/
theorem placed_mul_pow (n j places : ℕ) :
    (n : ℚ) * 10 ^ ((j : ℤ) - places) = placed places (n * 10 ^ j) := by
  rw [placed, sub_eq_add_neg, zpow_add₀ (by norm_num), zpow_natCast]
  push_cast
  ring

/-- The order of fixed-place numbers is that of the integers their digits denote. -/
theorem placed_le_placed (h : m ≤ n) : placed places m ≤ placed places n :=
  mul_le_mul_of_nonneg_right (by exact_mod_cast h) (zpow_pos (by norm_num) _).le

/-- Whether a number is at or above a midpoint can be decided on the integers of its digits. -/
theorem midpoint_le_iff (a b : ℕ) :
    (placed places a + placed places b) / 2 ≤ placed places n ↔ a + b ≤ 2 * n := by
  have hpos : (0 : ℚ) < 10 ^ (-(places : ℤ)) := zpow_pos (by norm_num) _
  rw [div_le_iff₀ two_pos, placed, placed, placed, ← add_mul, mul_right_comm,
    mul_le_mul_iff_left₀ hpos, mul_comm (n : ℚ)]
  exact_mod_cast Iff.rfl

/-- The digit that decides is the one behind the last one. -/
theorem five_le_iff (n i : ℕ) : 5 ≤ n / 10 ^ i % 10 ↔
    n / 10 ^ (i + 1) * 10 ^ (i + 1) + (n / 10 ^ (i + 1) + 1) * 10 ^ (i + 1) ≤ 2 * n := by
  have hpos : 0 < 10 ^ i := Nat.pow_pos (by decide)
  have hn := Nat.div_add_mod n (10 ^ i)
  have hlt := Nat.mod_lt n hpos
  have hdiv : n / 10 ^ (i + 1) = n / 10 ^ i / 10 := by
    rw [Nat.pow_succ, Nat.div_div_eq_div_mul]
  have hdigit := Nat.div_add_mod (n / 10 ^ i) 10
  rw [hdiv, Nat.pow_succ]
  generalize n / 10 ^ i = q at hn hdigit ⊢
  generalize n % 10 ^ i = r at hn hlt
  generalize 10 ^ i = t at hpos hn hlt ⊢
  generalize q / 10 = a at hdigit ⊢
  generalize q % 10 = d at hdigit ⊢
  subst hdigit hn
  constructor
  · intro h
    nlinarith
  · intro h
    by_contra hd
    nlinarith

/-- **The rounded digits** are the nearest ones of the number in the text. -/
theorem exists_roundToPrecision (hp : 1 ≤ p) (hlow : 10 ^ k ≤ n) (hhigh : n < 10 ^ (k + 1))
    (places : ℕ) :
    ∃ m carried, roundToPrecision (fixedDigits (k + 1) n) p = some (fixedDigits p m, carried) ∧
      10 ^ (p - 1) ≤ m ∧ m < 10 ^ p ∧
      IsNearest (significant 10 p) (placed places n)
        (m * 10 ^ ((if carried then (k : ℤ) - places + 1 else k - places) - p + 1)) := by
  obtain hle | hgt := le_or_gt (k + 1) p
  · -- all digits, with zeros behind
    obtain ⟨z, rfl⟩ := Nat.exists_eq_add_of_le hle
    have hvalue : ((n * 10 ^ z : ℕ) : ℚ) * 10 ^ ((k : ℤ) - places - (k + 1 + z : ℕ) + 1) =
        placed places n := by
      have hexponent : (k : ℤ) - places - (k + 1 + z : ℕ) + 1 = -(places : ℤ) + -(z : ℤ) := by
        push_cast
        ring
      rw [hexponent, zpow_add₀ (by norm_num), zpow_neg _ (z : ℤ), zpow_natCast, placed]
      push_cast
      field_simp
    have hmlow : 10 ^ (k + 1 + z - 1) ≤ n * 10 ^ z := by
      rw [show k + 1 + z - 1 = k + z by omega, Nat.pow_add]
      exact Nat.mul_le_mul_right _ hlow
    have hmhigh : n * 10 ^ z < 10 ^ (k + 1 + z) := by
      rw [Nat.pow_add]
      exact Nat.mul_lt_mul_of_pos_right hhigh (Nat.pow_pos (by decide))
    refine ⟨n * 10 ^ z, false, ?_, hmlow, hmhigh, ?_⟩
    · rw [roundToPrecision_of_le hle, Nat.add_sub_cancel_left]
    · rw [if_neg Bool.false_ne_true, hvalue]
      exact isNearest_self (hvalue ▸ mem_significant hmlow hmhigh _)
  · obtain ⟨j, rfl⟩ := Nat.exists_eq_add_of_le' hp
    obtain ⟨i, rfl⟩ : ∃ i, k = j + 1 + i := ⟨k - (j + 1), by omega⟩
    have hpos : 0 < 10 ^ (i + 1) := Nat.pow_pos (by decide)
    have hmlow : 10 ^ j ≤ n / 10 ^ (i + 1) := by
      rw [Nat.le_div_iff_mul_le hpos, ← Nat.pow_add, show j + (i + 1) = j + 1 + i by omega]
      exact hlow
    have hmhigh : n / 10 ^ (i + 1) < 10 ^ (j + 1) := by
      rw [Nat.div_lt_iff_lt_mul hpos, ← Nat.pow_add]
      exact hhigh
    have hround := roundToPrecision_of_gt hmhigh
    have hup := five_le_iff n i
    have hle : n / 10 ^ (i + 1) * 10 ^ (i + 1) ≤ n := Nat.div_mul_le_self _ _
    have hlt : n < (n / 10 ^ (i + 1) + 1) * 10 ^ (i + 1) := by
      rw [Nat.mul_comm]
      exact Nat.lt_mul_div_succ n hpos
    have hneighbours := neighbours_mul (show 1 < 10 by decide) (Nat.le_add_left 1 j) hmlow hmhigh
      (((i + 1 : ℕ) : ℤ) - places)
    have hexponent : ((j + 1 + i : ℕ) : ℤ) - places - (j + 1 : ℕ) + 1 =
        ((i + 1 : ℕ) : ℤ) - places := by
      push_cast
      ring
    generalize n / 10 ^ (i + 1) = m at *
    rw [Nat.cast_ofNat, placed_mul_pow, placed_mul_pow] at hneighbours
    by_cases h : 5 ≤ n / 10 ^ i % 10
    · have hnearest := hneighbours.isNearest_right ((midpoint_le_iff _ _).mpr (hup.mp h))
        (placed_le_placed hlt.le)
      rw [← placed_mul_pow] at hnearest
      rw [if_pos h] at hround
      by_cases hall : m + 1 = 10 ^ (j + 1)
      · rw [if_pos hall] at hround
        refine ⟨10 ^ j, true, hround, le_rfl, Nat.pow_lt_pow_right (by decide) (by omega), ?_⟩
        rw [if_pos rfl, show ((j + 1 + i : ℕ) : ℤ) - places + 1 - (j + 1 : ℕ) + 1 =
          ((i + 1 : ℕ) : ℤ) - places + 1 by rw [← hexponent]; ring]
        have hvalue : ((10 ^ j : ℕ) : ℚ) * 10 ^ (((i + 1 : ℕ) : ℤ) - places + 1) =
            ((m + 1 : ℕ) : ℚ) * 10 ^ (((i + 1 : ℕ) : ℤ) - places) := by
          rw [hall, zpow_add_one₀ (by norm_num)]
          push_cast
          ring
        rw [hvalue]
        exact hnearest
      · rw [if_neg hall] at hround
        refine ⟨m + 1, false, hround, by rw [Nat.add_sub_cancel]; omega, by omega, ?_⟩
        rw [if_neg Bool.false_ne_true, hexponent]
        exact hnearest
    · have hmid : placed places n <
          (placed places (m * 10 ^ (i + 1)) + placed places ((m + 1) * 10 ^ (i + 1))) / 2 :=
        not_le.mp fun hle => h (hup.mpr ((midpoint_le_iff _ _).mp hle))
      have hnearest := hneighbours.isNearest_left (placed_le_placed hle) hmid
      rw [← placed_mul_pow] at hnearest
      rw [if_neg h] at hround
      refine ⟨m, false, hround, hmlow, hmhigh, ?_⟩
      rw [if_neg Bool.false_ne_true, hexponent]
      exact hnearest

/-! ### The layout -/

/-- The digits that the standard asks for are the digits of the integer, padded to their number. -/
theorem specDigits_eq (hlow : 10 ^ (p - 1) ≤ n ∨ n = 0) (hhigh : n < 10 ^ p) (hp : 1 ≤ p) :
    specDigits p n = fixedDigits p n := by
  obtain ⟨j, rfl⟩ := Nat.exists_eq_add_of_le' hp
  rw [specDigits]
  split
  · next hzero => rw [hzero, fixedDigits_zero]
  · next hne => exact toDigits_eq_fixedDigits (hlow.resolve_right hne) hhigh

/-- A negative exponent is written with a minus sign. -/
theorem i32ToString_of_neg (h : e < 0) : i32ToString e = '-' :: Nat.toDigits 10 e.natAbs :=
  if_pos h

/-- An exponent that is not negative is written without a sign. -/
theorem i32ToString_of_nonneg (h : 0 ≤ e) : i32ToString e = Nat.toDigits 10 e.natAbs :=
  if_neg h.not_gt

/-- Exponents that are small or large lead to the scientific notation of the standard. -/
theorem scientific_eq (hp : 1 ≤ p) (hlength : digits.length = p) (he : e < -6 ∨ p ≤ e) :
    scientific digits p e = some (specLayout p digits e) := by
  have hsign : (if e ≥ p then ['+'] else []) ++ i32ToString e =
      (if 0 < e then '+' else '-') :: Nat.toDigits 10 e.natAbs := by
    rcases he with hsmall | hlarge
    · rw [if_neg (by omega), if_neg (by omega), i32ToString_of_neg (by omega)]
      rfl
    · rw [if_pos hlarge, if_pos (by omega), i32ToString_of_nonneg (by omega)]
      rfl
  have hplus (s : List Char) : (if e ≥ p then s ++ ['+'] else s) ++ i32ToString e =
      s ++ (if 0 < e then '+' else '-') :: Nat.toDigits 10 e.natAbs := by
    rw [← hsign]
    split <;> simp
  rw [specLayout, if_pos he, scientific]
  by_cases hone : p = 1
  · rw [if_neg (by omega), if_pos hone]
    simp only [Option.bind_eq_bind, Option.bind_some, hplus]
    simp
  · rw [if_pos (by omega), insertAt, if_pos (by omega), if_neg hone]
    simp only [Option.bind_eq_bind, Option.bind_some, hplus]
    simp

/-- The other exponents lead to the fixed notation of the standard, behind the sign. -/
theorem fixedNotation_eq (pre : List Char) (hlength : digits.length = p)
    (hlow : -6 ≤ e) (hhigh : e < p) :
    fixedNotation pre digits p e = some (pre ++ specLayout p digits e) := by
  rw [specLayout, if_neg (by omega), fixedNotation]
  by_cases hlast : e = p - 1
  · rw [if_pos (by omega), if_pos hlast]
  · rw [if_neg (by omega), if_neg hlast]
    by_cases hnonneg : 0 ≤ e
    · rw [if_pos hnonneg, if_pos hnonneg, insertAt, if_pos (by omega)]
      rfl
    · rw [if_neg hnonneg, if_neg hnonneg]
      simp

/-- A finite double is below zero as the code tests it if and only if its value is. -/
theorem lt_zero_iff (hx : x.isFinite = true) : x.lt (zero false) = true ↔ x.value < 0 := by
  have hzero : (zero false).units = 0 := by decide
  have hnan : (zero false).isNaN = false := by decide
  rw [F64.lt, isNaN_of_isFinite hx, hnan, hzero, Bool.not_false, Bool.true_and, Bool.true_and,
    decide_eq_true_iff, F64.value, div_neg_iff]
  simp only [Int.cast_lt_zero]
  constructor
  · exact fun h => .inr ⟨h, by positivity⟩
  · rintro (⟨-, h⟩ | ⟨h, -⟩)
    · exact absurd h (pow_pos two_pos _).not_gt
    · exact h

/-- A double is zero, with either sign, if and only if its value is. -/
theorem isZero_iff_value : x.isZero = true ↔ x.value = 0 := by
  rw [F64.isZero, decide_eq_true_iff, F64.value, div_eq_zero_iff, Int.cast_eq_zero, F64.units]
  constructor
  · intro h
    rw [h]
    simp
  · rintro (h | h)
    · split at h <;> omega
    · exact absurd h (pow_ne_zero _ (by norm_num))

/-- **The result is laid out** from the digits and the exponent. -/
theorem toPrecision_eq (hx : x.isFinite = true) (hp : 1 ≤ p) (hp' : p ≤ 100)
    (h : precisionDigits (if x.value < 0 then x.neg else x) p = some (digits, e))
    (hlength : digits.length = p) (hzero : x.value = 0 → e = 0) (toString : F64 → List Char)
    {precision : Int64} (hprecision : precision.toInt = p) :
    toPrecision toString x (some (.integer precision)) =
      .ok ((if x.value < 0 then ['-'] else []) ++ specLayout p digits e) := by
  have hpre : (if x.lt (zero false) = true then ['-'] else []) =
      if x.value < 0 then ['-'] else [] := if_congr (lt_zero_iff hx) rfl rfl
  have habs : (if x.lt (zero false) = true then x.neg else x) =
      if x.value < 0 then x.neg else x := if_congr (lt_zero_iff hx) rfl rfl
  have hiszero : (if x.value < 0 then x.neg else x).isZero = true ↔ x.value = 0 := by
    rw [isZero_iff_value]
    split
    · rw [value_neg, neg_eq_zero]
    · rfl
  have htext : precisionText x p =
      some ((if x.value < 0 then ['-'] else []) ++ specLayout p digits e) := by
    simp only [precisionText, hpre, habs]
    generalize (if x.value < 0 then x.neg else x) = y at h hiszero
    generalize (if x.value < 0 then ['-'] else []) = pre
    rw [h]
    simp only [Option.bind_eq_bind, Option.bind_some, Bool.not_eq_true', ← Bool.not_eq_true,
      hiszero]
    split
    · next hscientific =>
        rw [scientific_eq hp hlength hscientific.2, Option.map_some]
    · next hfixed =>
        rw [not_and_or, not_or, not_not] at hfixed
        have hbounds : -6 ≤ e ∧ e < p := by
          rcases hfixed with heq | ⟨hlow, hhigh⟩
          · rw [hzero heq]
            omega
          · omega
        exact fixedNotation_eq _ hlength hbounds.1 hbounds.2
  rw [toPrecision, hx, Bool.not_true, if_neg Bool.false_ne_true]
  simp only [hprecision]
  rw [if_pos (by omega), Int.toNat_natCast, htext]

/-! ### The claim -/

/-- A number rounded to a hundred decimal places, ties to even. -/
def hundredPlaces (q : ℚ) : ℚ := placed 100 (roundHalfEven (q * 10 ^ 100))

/-- Zero with a hundred places is zero. -/
theorem hundredPlaces_zero : hundredPlaces 0 = 0 := by
  rw [hundredPlaces, zero_mul, show roundHalfEven 0 = 0 from roundHalfEven_natCast 0, placed,
    Nat.cast_zero, zero_mul]

/-- **The digits and the exponent** are those of the number rounded to a hundred places. If nothing
is left of it, the digits are zeros. -/
theorem precisionDigits_eq (hp : 1 ≤ p) (hp' : p ≤ 100) (hzero : x.isZero = false) :
    ∃ m e, precisionDigits x p = some (fixedDigits p m, e) ∧ m < 10 ^ p ∧
      (hundredPlaces x.value = 0 ∧ m = 0 ∨
        hundredPlaces x.value ≠ 0 ∧ 10 ^ (p - 1) ≤ m ∧
          IsNearest (significant 10 p) (hundredPlaces x.value) (m * 10 ^ (e - p + 1))) := by
  rw [precisionDigits, hzero, if_neg Bool.false_ne_true, formatFixed, hundredPlaces]
  generalize roundHalfEven (x.value * 10 ^ 100) = n
  obtain rfl | hpos := Nat.eq_zero_or_pos n
  · obtain ⟨hexponent, hdigits⟩ := fixedText_zero 100
    obtain ⟨j, rfl⟩ := Nat.exists_eq_add_of_le' hp
    obtain ⟨i, hi⟩ : ∃ i, 100 + 1 = j + 1 + (i + 1) := ⟨99 - j, by omega⟩
    have hround := roundToPrecision_of_gt (n := 0) (i := i) (j := j)
      (by rw [Nat.zero_div]; exact Nat.pow_pos (by decide))
    rw [Nat.zero_div, Nat.zero_mod, if_neg (by decide), Nat.zero_div, ← hi, fixedDigits_zero]
      at hround
    refine ⟨0, 100 + 1, ?_, Nat.pow_pos (by decide), .inl ⟨by simp [placed], rfl⟩⟩
    simp only [Option.bind_eq_bind]
    rw [hexponent, Nat.cast_ofNat] at *
    rw [hdigits, Option.bind_some, hround, Option.bind_some, if_neg Bool.false_ne_true]
    rfl
  · have hlow : 10 ^ Nat.log 10 n ≤ n := Nat.pow_log_le_self 10 hpos.ne'
    have hhigh : n < 10 ^ (Nat.log 10 n + 1) := Nat.lt_pow_succ_log_self (by decide) n
    obtain ⟨hexponent, hdigits⟩ := fixedText_digits hlow hhigh 100
    obtain ⟨m, carried, hround, hmlow, hmhigh, hnearest⟩ :=
      exists_roundToPrecision hp hlow hhigh 100
    have hne : placed 100 n ≠ 0 :=
      mul_ne_zero (by exact_mod_cast hpos.ne') (zpow_ne_zero _ (by norm_num))
    refine ⟨m, _, ?_, hmhigh, .inr ⟨hne, hmlow, hnearest⟩⟩
    simp only [Option.bind_eq_bind]
    rw [hexponent, hdigits, Option.bind_some, hround, Option.bind_some]
    rfl

/-- Taking the sign off a double leaves the absolute value. -/
theorem value_unsigned (x : F64) : (if x.value < 0 then x.neg else x).value = |x.value| := by
  split
  · next h => rw [value_neg, abs_of_neg h]
  · next h => rw [abs_of_nonneg (not_lt.mp h)]

/-- The digits and the exponent of the call, next to what the specification asks for. -/
theorem exists_precisionDigits (hp : 1 ≤ p) (hp' : p ≤ 100) (hvalue : x.value ≠ 0) :
    ∃ m e, precisionDigits (if x.value < 0 then x.neg else x) p = some (fixedDigits p m, e) ∧
      m < 10 ^ p ∧ (hundredPlaces |x.value| = 0 ∧ m = 0 ∨
        hundredPlaces |x.value| ≠ 0 ∧ 10 ^ (p - 1) ≤ m ∧
          IsNearest (significant 10 p) (hundredPlaces |x.value|) (m * 10 ^ (e - p + 1))) := by
  rw [← value_unsigned]
  refine precisionDigits_eq hp hp' ?_
  rw [← Bool.not_eq_true, isZero_iff_value, value_unsigned]
  exact (abs_pos.mpr hvalue).ne'

/-- The specified digits and exponent are those of the call. -/
theorem Conforms.digits_eq (h : Conforms x p) (hp : 1 ≤ p) (hvalue : x.value ≠ 0)
    (hdigits : precisionDigits (if x.value < 0 then x.neg else x) p = some (fixedDigits p m, e))
    (hm : m < 10 ^ p) :
    10 ^ (p - 1) ≤ m ∧ IsNearest (significant 10 p) |x.value| (m * 10 ^ (e - p + 1)) := by
  obtain ⟨n, e', hn, hdigits', -⟩ := h
  rw [IsPrecision, if_neg (abs_pos.mpr hvalue).ne'] at hn
  obtain ⟨hlow, hhigh, hnearest⟩ := hn
  rw [hdigits, specDigits_eq (.inl hlow) hhigh hp, Option.some.injEq, Prod.mk.injEq] at hdigits'
  obtain ⟨hsame, rfl⟩ := hdigits'
  obtain rfl := fixedDigits_injective hm hhigh hsame
  exact ⟨hlow, hnearest⟩

/-- Where nothing is left in a hundred places, the digits are wrong. -/
theorem not_conforms_of_nothing (hp : 1 ≤ p) (hp' : p ≤ 100) (hvalue : x.value ≠ 0)
    (h : hundredPlaces |x.value| = 0) : ¬ Conforms x p := by
  intro hconforms
  obtain ⟨m, e, hdigits, hm, ⟨-, rfl⟩ | ⟨hne, -, -⟩⟩ := exists_precisionDigits hp hp' hvalue
  · have := (hconforms.digits_eq hp hvalue hdigits hm).1
    have hten : 0 < 10 ^ (p - 1) := Nat.pow_pos (by decide)
    omega
  · exact hne h

/-- **Which results are the specified ones**: no midpoint between neighbours of `p` digits lies
between the number and what is left of it in a hundred decimal places. -/
theorem toPrecision_conforms_iff (hx : x.isFinite = true) (hp : 1 ≤ p) (hp' : p ≤ 100) :
    Conforms x p ↔ ∀ a b, Neighbours (significant 10 p) a b →
      ((a + b) / 2 ≤ |x.value| ↔ (a + b) / 2 ≤ hundredPlaces |x.value|) := by
  by_cases hvalue : x.value = 0
  · have hdigits : precisionDigits (if x.value < 0 then x.neg else x) p =
        some (specDigits p 0, 0) := by
      rw [if_neg hvalue.not_lt, precisionDigits, if_pos (isZero_iff_value.mpr hvalue), specDigits,
        if_pos rfl]
    constructor
    · intro _ a b _
      rw [hvalue, abs_zero, hundredPlaces_zero]
    · intro _
      refine ⟨0, 0, ?_, hdigits, fun toString precision => ?_⟩
      · rw [hvalue, abs_zero, IsPrecision, if_pos rfl]
        exact ⟨rfl, rfl⟩
      · refine toPrecision_eq hx hp hp' hdigits ?_ (fun _ => rfl) toString
        rw [specDigits, if_pos rfl, List.length_replicate]
  · have hpos : 0 < |x.value| := abs_pos.mpr hvalue
    have hexists := exists_isNearest (show 1 < 10 by decide) hp hpos
    have hneighbour := fun v => exists_neighbour (v := v) (show 1 < 10 by decide) hp
    obtain ⟨m, e, hdigits, hm, ⟨hnothing, -⟩ | ⟨-, hlow, hrounded⟩⟩ :=
      exists_precisionDigits hp hp' hvalue
    · -- nothing is left, and there are midpoints below every number
      refine iff_of_false (not_conforms_of_nothing hp hp' hvalue hnothing) fun hsame => ?_
      obtain ⟨a, b, hab, hmid, hle⟩ := exists_midpoint_le (show 1 < 10 by decide) hp hpos
      have := (hsame a b hab).mp hle
      rw [hnothing] at this
      exact hmid.not_ge this
    · rw [← isNearest_iff_midpoints hneighbour hexists hrounded]
      constructor
      · exact fun hconforms => (hconforms.digits_eq hp hvalue hdigits hm).2
      · intro hnearest
        have hspec := specDigits_eq (.inl hlow) hm hp
        refine ⟨m, e, ?_, by rw [hdigits, hspec], fun toString precision => ?_⟩
        · rw [IsPrecision, if_neg hpos.ne']
          exact ⟨hlow, hm, hnearest⟩
        · rw [hspec]
          exact toPrecision_eq hx hp hp' hdigits (length_fixedDigits _ _)
            (fun h => absurd h hvalue) toString

/-- What has a hundred decimal places is not changed by the rounding. -/
theorem hundredPlaces_placed (n : ℕ) : hundredPlaces (placed 100 n) = placed 100 n := by
  have hvalue : placed 100 n * 10 ^ 100 = n := by
    rw [placed, mul_assoc, ← zpow_natCast, ← zpow_add₀ (by norm_num)]
    simp
  rw [hundredPlaces, hvalue, roundHalfEven_natCast]

/-- Nothing is left of a number below half of the last place. -/
theorem hundredPlaces_of_lt {q : ℚ} (hq : 0 ≤ q) (h : q * 10 ^ 100 < 1 / 2) :
    hundredPlaces q = 0 := by
  have hfloor : ⌊q * 10 ^ 100⌋.toNat = 0 := by
    rw [Int.floor_eq_zero_iff.mpr ⟨by positivity, h.trans (by norm_num)⟩]
    rfl
  have hround : roundHalfEven (q * 10 ^ 100) = 0 := by
    simp only [roundHalfEven, hfloor, Nat.cast_zero, sub_zero, if_pos h]
  rw [hundredPlaces, hround, placed, Nat.cast_zero, zero_mul]

/-- An integer has no decimal places. -/
theorem hundredPlaces_natCast (n : ℕ) : hundredPlaces n = n := by
  have hplaced : placed 100 (n * 10 ^ 100) = n := by
    rw [← placed_mul_pow, Nat.cast_ofNat, sub_self, zpow_zero, mul_one]
  rw [← hplaced, hundredPlaces_placed]

/-- `(95).toPrecision(1)` is `1e+2`: the digit is rounded up to a new one. -/
theorem toPrecision_conforms_ninetyFive : Conforms (ofInteger 95) 1 := by
  have hfinite : (ofInteger 95).isFinite = true := isFinite_ofInteger (by decide)
  refine (toPrecision_conforms_iff hfinite (by decide) (by decide)).mpr fun a b _ => ?_
  have hvalue : |(ofInteger 95).value| = (95 : ℕ) := by
    rw [value_ofInteger (by decide), ← Int.cast_abs]
    rfl
  rw [hvalue, hundredPlaces_natCast]

/-- `(5e-324).toPrecision(1)` is `0e+101`. -/
theorem not_toPrecision_conforms : ¬ Conforms ⟨1⟩ 1 := by
  have hunits : (F64.mk 1).units = 1 := by decide
  have hvalue : (F64.mk 1).value = 1 / 2 ^ 1074 := by rw [F64.value, hunits, Int.cast_one]
  have hpos : (0 : ℚ) < 1 / 2 ^ 1074 := div_pos one_pos (pow_pos two_pos _)
  have hlt : (2 : ℚ) * 10 ^ 100 < 2 ^ 1074 :=
    calc (2 : ℚ) * 10 ^ 100 < 2 * 16 ^ 100 := by gcongr; norm_num
      _ = 2 ^ 401 := by rw [show (16 : ℚ) = 2 ^ 4 by norm_num, ← pow_mul, ← pow_succ']
      _ ≤ 2 ^ 1074 := pow_le_pow_right₀ one_le_two (by decide)
  refine not_conforms_of_nothing le_rfl (by decide) (hvalue ▸ hpos.ne') ?_
  rw [hvalue, abs_of_pos hpos]
  refine hundredPlaces_of_lt hpos.le ?_
  rw [div_mul_eq_mul_div, one_mul, div_lt_div_iff₀ (pow_pos two_pos _) two_pos, one_mul, mul_comm]
  exact hlt

end BoaLigero.Number
