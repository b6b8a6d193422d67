import BoaLigero.String.CodePoint

/-!
# Hexadecimal Digits

The digits that Rust reads (`char::to_digit`) and the numbers it formats (`{:02X}`, `{:04X}`).

## Main results

* `hexDigitValue_eq_some_iff` — the code units that are hexadecimal digits.
* `paddedUpperHex_two`, `paddedUpperHex_four` — the digits of padded numbers.
-/

namespace BoaLigero

/-- The character of a number (`char::from_u32`), unless it is a surrogate or past the last code
point. -/
def charFromU32 (n : ℕ) : Option Char :=
  if h : n.isValidChar then some (Char.ofNatAux n h) else none

/-- The value of a digit in a radix (`char::to_digit`). -/
def toDigit (radix : ℕ) (c : Char) : Option ℕ :=
  let digit :=
    if 0x30 ≤ c.toNat ∧ c.toNat ≤ 0x39 then some (c.toNat - 0x30)
    else if 0x61 ≤ c.toNat ∧ c.toNat ≤ 0x7A then some (c.toNat - 0x61 + 10)
    else if 0x41 ≤ c.toNat ∧ c.toNat ≤ 0x5A then some (c.toNat - 0x41 + 10)
    else none
  digit.filter (· < radix)

/-- The value of a code unit as a hexadecimal digit. -/
def hexDigitValue (unit : UInt16) : Option ℕ := (charFromU32 unit.toNat).bind (toDigit 16)

/-- A number formatted with uppercase hexadecimal digits (`{:X}`). -/
def upperHex (n : ℕ) : List UInt16 := (Nat.toDigits 16 n).map fun c => .ofNat c.toUpper.toNat

/-- A number formatted with uppercase hexadecimal digits and leading zeros (`{:0widthX}`). -/
def paddedUpperHex (width n : ℕ) : List UInt16 := (upperHex n).leftpad width 0x30

/-- The code unit of an uppercase hexadecimal digit. -/
def upperDigit (d : ℕ) : UInt16 := .ofNat (if d < 10 then 0x30 + d else 0x37 + d)

/-! ### Reading -/

/-- A character made of a number has that number as its code point. -/
theorem toNat_of_charFromU32 {n : ℕ} {c : Char} (h : charFromU32 n = some c) : c.toNat = n := by
  rw [charFromU32, Option.dite_none_right_eq_some] at h
  obtain ⟨_, hc⟩ := h
  cases hc
  rfl

/-- Every number below the surrogates is the code point of a character. -/
theorem charFromU32_of_lt {n : ℕ} (h : n < 0xD800) : ∃ c, charFromU32 n = some c ∧ c.toNat = n := by
  obtain ⟨c, hc⟩ : ∃ c, charFromU32 n = some c := ⟨_, dif_pos (.inl h)⟩
  exact ⟨c, hc, toNat_of_charFromU32 hc⟩

/-- The digits of a radix are the decimal digits and the letters in both cases, each with its value.
-/
theorem toDigit_eq_some_iff {radix d : ℕ} {c : Char} :
    toDigit radix c = some d ↔ d < radix ∧
      (0x30 ≤ c.toNat ∧ c.toNat ≤ 0x39 ∧ d = c.toNat - 0x30 ∨
        0x61 ≤ c.toNat ∧ c.toNat ≤ 0x7A ∧ d = c.toNat - 0x61 + 10 ∨
        0x41 ≤ c.toNat ∧ c.toNat ≤ 0x5A ∧ d = c.toNat - 0x41 + 10) := by
  rw [toDigit, Option.filter_eq_some_iff, decide_eq_true_iff, and_comm]
  refine and_congr_right fun _ => ?_
  constructor
  · split_ifs with hdecimal hlower hupper
    · rintro ⟨⟩
      exact .inl ⟨hdecimal.1, hdecimal.2, rfl⟩
    · rintro ⟨⟩
      exact .inr (.inl ⟨hlower.1, hlower.2, rfl⟩)
    · rintro ⟨⟩
      exact .inr (.inr ⟨hupper.1, hupper.2, rfl⟩)
    · rintro ⟨⟩
  · rintro (⟨hge, hle, rfl⟩ | ⟨hge, hle, rfl⟩ | ⟨hge, hle, rfl⟩)
    · rw [if_pos ⟨hge, hle⟩]
    · rw [if_neg (by omega), if_pos ⟨hge, hle⟩]
    · rw [if_neg (by omega), if_neg (by omega), if_pos ⟨hge, hle⟩]

/-- **The code units that are hexadecimal digits**: `0` to `9`, `A` to `F`, and `a` to `f`. -/
theorem hexDigitValue_eq_some_iff {unit : UInt16} {d : ℕ} :
    hexDigitValue unit = some d ↔
      0x30 ≤ unit.toNat ∧ unit.toNat ≤ 0x39 ∧ d = unit.toNat - 0x30 ∨
        0x61 ≤ unit.toNat ∧ unit.toNat ≤ 0x66 ∧ d = unit.toNat - 0x61 + 10 ∨
        0x41 ≤ unit.toNat ∧ unit.toNat ≤ 0x46 ∧ d = unit.toNat - 0x41 + 10 := by
  rw [hexDigitValue, Option.bind_eq_some_iff]
  constructor
  · rintro ⟨c, hc, hd⟩
    rw [toDigit_eq_some_iff, toNat_of_charFromU32 hc] at hd
    obtain ⟨hlt, hdecimal | hlower | hupper⟩ := hd
    · exact .inl hdecimal
    · exact .inr (.inl ⟨hlower.1, by omega, hlower.2.2⟩)
    · exact .inr (.inr ⟨hupper.1, by omega, hupper.2.2⟩)
  · intro h
    have hbound : unit.toNat < 0xD800 := by
      obtain h | h | h := h <;> exact Nat.lt_of_le_of_lt h.2.1 (by decide)
    obtain ⟨c, hc, hnat⟩ := charFromU32_of_lt hbound
    refine ⟨c, hc, ?_⟩
    rw [toDigit_eq_some_iff, hnat]
    obtain hdecimal | hlower | hupper := h
    · exact ⟨by omega, .inl hdecimal⟩
    · exact ⟨by omega, .inr (.inl ⟨hlower.1, by omega, hlower.2.2⟩)⟩
    · exact ⟨by omega, .inr (.inr ⟨hupper.1, by omega, hupper.2.2⟩)⟩

/-- An uppercase digit is read back. -/
theorem hexDigitValue_upperDigit {d : ℕ} (h : d < 16) : hexDigitValue (upperDigit d) = some d := by
  have hnat : (upperDigit d).toNat = if d < 10 then 0x30 + d else 0x37 + d := by
    rw [upperDigit, UInt16.toNat_ofNat', Nat.mod_eq_of_lt]
    split <;> omega
  rw [hexDigitValue_eq_some_iff, hnat]
  split
  · exact .inl ⟨by omega, by omega, by omega⟩
  · exact .inr (.inr ⟨by omega, by omega, by omega⟩)

/-! ### Formatting -/

/-- A number of one hexadecimal digit is written as that digit, in upper case. -/
theorem upperHex_of_lt {n : ℕ} (h : n < 16) : upperHex n = [upperDigit n] := by
  rw [upperHex, Nat.toDigits_of_lt_base h, List.map_singleton]
  revert n
  decide

/-- The last digit of a number, behind the digits of the rest. -/
theorem upperHex_of_le {n : ℕ} (h : 16 ≤ n) :
    upperHex n = upperHex (n / 16) ++ [upperDigit (n % 16)] := by
  have hlt : n % 16 < 16 := Nat.mod_lt n (by omega)
  rw [← upperHex_of_lt hlt, upperHex, upperHex, upperHex, Nat.toDigits_of_base_le (by omega) h,
    Nat.toDigits_of_lt_base hlt, List.map_append]

/-- A padded number has the padded rest in front of its last digit. -/
theorem paddedUpperHex_succ {width : ℕ} (hwidth : 0 < width) (n : ℕ) :
    paddedUpperHex (width + 1) n = paddedUpperHex width (n / 16) ++ [upperDigit (n % 16)] := by
  by_cases h : n < 16
  · obtain ⟨w, rfl⟩ := Nat.exists_eq_succ_of_ne_zero (Nat.ne_of_gt hwidth)
    rw [paddedUpperHex, paddedUpperHex, upperHex_of_lt h, Nat.div_eq_of_lt h, Nat.mod_eq_of_lt h,
      upperHex_of_lt (by omega), List.leftpad, List.leftpad]
    simp [List.replicate_succ', upperDigit]
  · rw [paddedUpperHex, paddedUpperHex, upperHex_of_le (Nat.le_of_not_lt h), List.leftpad,
      List.leftpad]
    simp

/-- A number of one hexadecimal digit needs no padding to one digit. -/
theorem paddedUpperHex_one {n : ℕ} (h : n < 16) : paddedUpperHex 1 n = [upperDigit n] := by
  rw [paddedUpperHex, upperHex_of_lt h]
  rfl

/-- A number of one byte has two digits. -/
theorem paddedUpperHex_two {n : ℕ} (h : n < 256) :
    paddedUpperHex 2 n = [upperDigit (n / 16), upperDigit (n % 16)] := by
  rw [paddedUpperHex_succ Nat.one_pos, paddedUpperHex_one (by omega)]
  rfl

/-- A number of two bytes has four digits. -/
theorem paddedUpperHex_four {n : ℕ} (h : n < 65536) :
    paddedUpperHex 4 n = [upperDigit (n / 16 / 16 / 16), upperDigit (n / 16 / 16 % 16),
      upperDigit (n / 16 % 16), upperDigit (n % 16)] := by
  rw [paddedUpperHex_succ (by omega), paddedUpperHex_succ (by omega),
    paddedUpperHex_two (by omega)]
  rfl

end BoaLigero
