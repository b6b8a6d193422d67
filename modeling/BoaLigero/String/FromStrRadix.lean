import BoaLigero.String.HexDigit
import BoaLigero.Util.Digits
import Mathlib.Data.List.Forall2

/-!
# Integers Read from Strings

The parser of Rust's unsigned integers (`from_str_radix`), which reads an optional `+` and at least
one digit, and fails where the integer does not fit.

## Main results

* `fromStrRadix_eq_some_iff` — the strings that are read, and what they denote.
-/

namespace BoaLigero

open Digits

/-- The characters are the digits of some values. -/
def IsDigits (radix : ℕ) (s : List Char) (digits : List ℕ) : Prop :=
  List.Forall₂ (fun c d => toDigit radix c = some d) s digits

/-- The digits of an unsigned integer, with overflow checks. -/
def checkedDigits (bits radix : ℕ) : List Char → ℕ → Option ℕ
  | [], value => some value
  | c :: rest, value =>
      (toDigit radix c).bind fun d =>
        if value * radix + d < 2 ^ bits then checkedDigits bits radix rest (value * radix + d)
        else none

/-- `from_str_radix` of an unsigned integer type. -/
def fromStrRadix (bits radix : ℕ) (src : List Char) : Option ℕ :=
  if src = [] ∨ src = ['+'] ∨ src = ['-'] then none
  else checkedDigits bits radix (if src.head? = some '+' then src.tail else src) 0

variable {bits radix : ℕ} {s : List Char} {digits digits' : List ℕ}

/-- Characters are digits in one way. -/
theorem IsDigits.unique (h : IsDigits radix s digits) (h' : IsDigits radix s digits') :
    digits = digits' := by
  induction h generalizing digits' with
  | nil =>
      cases h'
      rfl
  | cons hc _ ih =>
      cases h' with
      | cons hc' hrest =>
          rw [hc, Option.some.injEq] at hc'
          rw [hc', ih hrest]

/-- Each digit is below the radix. -/
theorem IsDigits.lt (h : IsDigits radix s digits) : ∀ d ∈ digits, d < radix := by
  induction h with
  | nil => exact fun d hd => absurd hd List.not_mem_nil
  | cons hc _ ih =>
      intro d hd
      cases List.mem_cons.mp hd with
      | inl heq => exact heq ▸ (toDigit_eq_some_iff.mp hc).1
      | inr hmem => exact ih d hmem

/-- No digit is a sign. -/
theorem not_digit_of_sign {c : Char} (h : c = '+' ∨ c = '-') (d : ℕ) : toDigit radix c ≠ some d := by
  rw [Ne, toDigit_eq_some_iff]
  rcases h with rfl | rfl
  · simp only [show '+'.toNat = 43 from rfl]
    omega
  · simp only [show '-'.toNat = 45 from rfl]
    omega

/-- Digits do not begin with a sign. -/
theorem IsDigits.ne_sign_of_cons {c : Char} (h : IsDigits radix (c :: s) digits) :
    c ≠ '+' ∧ c ≠ '-' := by
  cases h with
  | cons hd _ =>
      exact ⟨fun h => not_digit_of_sign (.inl h) _ hd, fun h => not_digit_of_sign (.inr h) _ hd⟩

/-- The checked loop gives the value exactly if all characters are digits and no intermediate value
overflows. -/
theorem checkedDigits_eq_some_iff (s : List Char) (value n : ℕ) (hradix : 0 < radix)
    (hvalue : value < 2 ^ bits) :
    checkedDigits bits radix s value = some n ↔
      ∃ digits, IsDigits radix s digits ∧
        digits.foldl (fun n d => n * radix + d) value = n ∧ n < 2 ^ bits := by
  induction s generalizing value with
  | nil =>
      rw [checkedDigits, Option.some.injEq]
      constructor
      · rintro rfl
        exact ⟨[], .nil, rfl, hvalue⟩
      · rintro ⟨digits, hdigits, hn, -⟩
        cases hdigits
        exact hn
  | cons c s ih =>
      rw [checkedDigits, Option.bind_eq_some_iff]
      constructor
      · rintro ⟨d, hd, hrest⟩
        split at hrest
        · next hlt =>
            obtain ⟨digits, hdigits, hn, hbound⟩ := (ih _ hlt).mp hrest
            exact ⟨d :: digits, .cons hd hdigits, hn, hbound⟩
        · cases hrest
      · rintro ⟨digits, hdigits, hn, hbound⟩
        cases hdigits with
        | cons hd hrest =>
            next d digits =>
            rw [List.foldl_cons] at hn
            have hle : value * radix + d ≤ n := by
              rw [← hn, foldl_digits]
              exact (Nat.le_mul_of_pos_right _ (Nat.pow_pos hradix)).trans (Nat.le_add_right _ _)
            refine ⟨d, hd, ?_⟩
            rw [if_pos (by omega), ih _ (by omega)]
            exact ⟨digits, hrest, hn, hbound⟩

/-- **The strings that are read**: an optional `+`, and digits whose number fits. -/
theorem fromStrRadix_eq_some_iff (hradix : 0 < radix) {src : List Char} {n : ℕ} :
    fromStrRadix bits radix src = some n ↔
      ∃ s digits, (src = s ∨ src = '+' :: s) ∧ s ≠ [] ∧ IsDigits radix s digits ∧
        ofDigits radix digits = n ∧ n < 2 ^ bits := by
  have hsign {s : List Char} {digits : List ℕ} {c : Char} (hc : c = '+' ∨ c = '-') :
      ¬ IsDigits radix (c :: s) digits := fun h => by
    obtain ⟨hplus, hminus⟩ := h.ne_sign_of_cons
    exact hc.elim hplus hminus
  rw [fromStrRadix]
  split
  · next h =>
      refine iff_of_false (by simp) ?_
      rintro ⟨s, digits, hs | hs, hne, hdigits, -⟩
      · rcases h with rfl | rfl | rfl
        · exact hne hs.symm
        · exact hsign (.inl rfl) (hs ▸ hdigits)
        · exact hsign (.inr rfl) (hs ▸ hdigits)
      · subst hs
        simp only [List.cons.injEq, reduceCtorEq, false_or] at h
        rcases h with ⟨-, rfl⟩ | ⟨hc, -⟩
        · exact hne rfl
        · exact absurd hc (by decide)
  · next h =>
      rw [checkedDigits_eq_some_iff _ 0 n hradix (Nat.two_pow_pos bits)]
      split
      · next hplus =>
          obtain ⟨s, rfl⟩ : ∃ s, src = '+' :: s := by
            cases src with
            | nil => cases hplus
            | cons c s =>
                cases hplus
                exact ⟨s, rfl⟩
          constructor
          · rintro ⟨digits, hdigits, hn, hbound⟩
            refine ⟨s, digits, .inr rfl, ?_, hdigits, hn, hbound⟩
            rintro rfl
            exact h (.inr (.inl rfl))
          · rintro ⟨s', digits, hs | hs, hne, hdigits, hn, hbound⟩
            · exact absurd (hs ▸ hdigits) (hsign (.inl rfl))
            · cases hs
              exact ⟨digits, hdigits, hn, hbound⟩
      · next hplus =>
          constructor
          · rintro ⟨digits, hdigits, hn, hbound⟩
            exact ⟨src, digits, .inl rfl, fun hnil => h (.inl hnil), hdigits, hn, hbound⟩
          · rintro ⟨s, digits, rfl | rfl, hne, hdigits, hn, hbound⟩
            · exact ⟨digits, hdigits, hn, hbound⟩
            · exact absurd rfl hplus

/-! ### Decimal digits -/

/-- The character of a decimal digit is read as that digit. -/
theorem toDigit_digitChar {n : ℕ} (h : n < 10) : toDigit 10 n.digitChar = some n := by
  revert n
  decide

/-- The digits of a number denote it. -/
theorem isDigits_toDigits (n : ℕ) :
    ∃ digits, IsDigits 10 (Nat.toDigits 10 n) digits ∧ ofDigits 10 digits = n := by
  induction n using Nat.strong_induction_on with
  | _ n ih =>
      by_cases h : n < 10
      · rw [Nat.toDigits_of_lt_base h]
        exact ⟨[n], .cons (toDigit_digitChar h) .nil, by simp [ofDigits]⟩
      · obtain ⟨digits, hdigits, hvalue⟩ := ih (n / 10) (by omega)
        have hmod : n % 10 < 10 := Nat.mod_lt n (by decide)
        rw [Nat.toDigits_of_base_le (by decide) (by omega)]
        refine ⟨digits ++ [n % 10], ?_, ?_⟩
        · exact List.rel_append hdigits (.cons (toDigit_digitChar hmod) .nil)
        · rw [ofDigits_concat, hvalue]
          omega

/-- The decimal digits tell numbers apart. -/
theorem toDigits_injective {m n : ℕ} (h : Nat.toDigits 10 m = Nat.toDigits 10 n) : m = n := by
  obtain ⟨digits, hdigits, hm⟩ := isDigits_toDigits m
  obtain ⟨digits', hdigits', hn⟩ := isDigits_toDigits n
  rw [h] at hdigits
  rw [← hm, ← hn, hdigits.unique hdigits']

end BoaLigero
