import BoaLigero.Parser.EscapeGrammar
import Mathlib.Data.Rat.Defs
import Mathlib.Algebra.Order.Field.Rat

/-!
# The Grammar of Numeric Literals

Numeric literals as the language specification has them, over the code points of a source text, with
their mathematical values: decimal literals with a fraction and an exponent, integers in other
bases, BigInt literals, and the legacy forms with a leading zero, which strict mode does not have.

A lexer takes the longest literal that the text begins with, and what follows it must not be a
character of an identifier.

## Main results

* `Lexes` — the longest literal in front of a text.
* `lexes_iff` — a literal is the longest one if nothing that follows it could go on with it.
* `OctalOrBinaryLiteral.not_numericLiteral` — no literal goes on with an exponent behind digits of a
  base below ten.
-/

namespace BoaLigero.Lexer

open Digits

/-! ### Literals -/

/-- What follows the first digit of digits with single separators between them, and the values of
the digits. -/
inductive SeparatedTail (radix : ℕ) : List ℕ → List ℕ → Prop
  | nil : SeparatedTail radix [] []
  | digit {c d s digits} (h : IsDigit radix c d) (tail : SeparatedTail radix s digits) :
      SeparatedTail radix (c :: s) (d :: digits)
  | separator {c d s digits} (h : IsDigit radix c d) (tail : SeparatedTail radix s digits) :
      SeparatedTail radix (0x5F :: c :: s) (d :: digits)

/-- Digits with single separators between them (`DecimalDigits`, `BinaryDigits`, `OctalDigits` and
`HexDigits`). -/
inductive SeparatedDigits (radix : ℕ) : List ℕ → List ℕ → Prop
  | mk {c d s digits} (h : IsDigit radix c d) (tail : SeparatedTail radix s digits) :
      SeparatedDigits radix (c :: s) (d :: digits)

/-- `DecimalIntegerLiteral`; the ones with a leading zero (`NonOctalDecimalIntegerLiteral`) are no
literals of strict mode. -/
inductive DecimalIntegerLiteral (strict : Bool) : List ℕ → List ℕ → Prop
  | zero : DecimalIntegerLiteral strict [0x30] [0]
  | nonZero {c d s digits} (h : IsDigit 10 c d) (hne : d ≠ 0) (tail : SeparatedTail 10 s digits) :
      DecimalIntegerLiteral strict (c :: s) (d :: digits)
  | nonOctal {s digits} (hsloppy : strict = false) (h : AreDigits 10 s digits)
      (hdigit : ∃ c ∈ s, ¬ IsOctalDigit c) : DecimalIntegerLiteral strict (0x30 :: s) (0 :: digits)

/-- Digits that may be left out. -/
inductive OptionalDigits : List ℕ → List ℕ → Prop
  | none : OptionalDigits [] []
  | digits {s digits} (h : SeparatedDigits 10 s digits) : OptionalDigits s digits

/-- The sign of an exponent, and whether it is negative. -/
inductive ExponentSign : List ℕ → Bool → Prop
  | none : ExponentSign [] false
  | plus : ExponentSign [0x2B] false
  | minus : ExponentSign [0x2D] true

/-- `ExponentIndicator`. -/
def IsExponentIndicator (c : ℕ) : Prop := c = 0x65 ∨ c = 0x45

/-- The indicator of an exponent is told by its code point. -/
instance (c : ℕ) : Decidable (IsExponentIndicator c) := inferInstanceAs (Decidable (_ ∨ _))

/-- `ExponentPart`. -/
inductive ExponentPart : List ℕ → ℤ → Prop
  | mk {indicator sign negative s digits} (hindicator : IsExponentIndicator indicator)
      (hsign : ExponentSign sign negative) (h : SeparatedDigits 10 s digits) :
      ExponentPart (indicator :: (sign ++ s))
        (if negative then -ofDigits 10 digits else ofDigits 10 digits)

/-- An exponent part that may be left out. -/
inductive OptionalExponent : List ℕ → ℤ → Prop
  | none : OptionalExponent [] 0
  | part {s e} (h : ExponentPart s e) : OptionalExponent s e

/-- A decimal literal without its exponent part. -/
inductive DecimalMantissa (strict : Bool) : List ℕ → ℚ → Prop
  | integer {s digits} (h : DecimalIntegerLiteral strict s digits) :
      DecimalMantissa strict s (ofDigits 10 digits)
  | point {s digits t fraction} (h : DecimalIntegerLiteral strict s digits)
      (hfraction : OptionalDigits t fraction) :
      DecimalMantissa strict (s ++ 0x2E :: t)
        (ofDigits 10 (digits ++ fraction) / 10 ^ fraction.length)
  | fraction {t fraction} (h : SeparatedDigits 10 t fraction) :
      DecimalMantissa strict (0x2E :: t) (ofDigits 10 fraction / 10 ^ fraction.length)

/-- The base that the letter behind a zero stands for. -/
def radixOf (c : ℕ) : Option ℕ :=
  if c = 0x62 ∨ c = 0x42 then some 2
  else if c = 0x6F ∨ c = 0x4F then some 8
  else if c = 0x78 ∨ c = 0x58 then some 16
  else none

/-- The mathematical value of a literal. -/
inductive NumericValue where
  | number (q : ℚ)
  | bigInt (n : ℕ)

/-- `NumericLiteral`. -/
inductive NumericLiteral (strict : Bool) : List ℕ → NumericValue → Prop
  | decimal {s q e exponent} (h : DecimalMantissa strict s q)
      (hexponent : OptionalExponent e exponent) :
      NumericLiteral strict (s ++ e) (.number (q * 10 ^ exponent))
  -- `DecimalBigIntegerLiteral` has no leading zeros, as integers in strict mode
  | decimalBigInteger {s digits} (h : DecimalIntegerLiteral true s digits) :
      NumericLiteral strict (s ++ [0x6E]) (.bigInt (ofDigits 10 digits))
  | nonDecimal {c radix s digits} (hradix : radixOf c = some radix)
      (h : SeparatedDigits radix s digits) :
      NumericLiteral strict (0x30 :: c :: s) (.number (ofDigits radix digits))
  | nonDecimalBigInteger {c radix s digits} (hradix : radixOf c = some radix)
      (h : SeparatedDigits radix s digits) :
      NumericLiteral strict (0x30 :: c :: (s ++ [0x6E])) (.bigInt (ofDigits radix digits))
  | legacyOctal {s digits} (hsloppy : strict = false) (hne : s ≠ []) (h : AreDigits 8 s digits) :
      NumericLiteral strict (0x30 :: s) (.number (ofDigits 8 digits))

/-- The ASCII characters of identifiers. -/
def IsIdentifierCharacter (c : ℕ) : Prop :=
  0x30 ≤ c ∧ c ≤ 0x39 ∨ 0x41 ≤ c ∧ c ≤ 0x5A ∨ 0x61 ≤ c ∧ c ≤ 0x7A ∨ c = 0x24 ∨ c = 0x5F

/-- A character of identifiers is told by its code point. -/
instance (c : ℕ) : Decidable (IsIdentifierCharacter c) := inferInstanceAs (Decidable (_ ∨ _))

/-- The longest literal that a text begins with, and what follows it, which must not be a character
of an identifier. -/
structure Lexes (strict : Bool) (text literal : List ℕ) (value : NumericValue) (rest : List ℕ) :
    Prop where
  text_eq : text = literal ++ rest
  isLiteral : NumericLiteral strict literal value
  longest : ∀ literal' value' rest', text = literal' ++ rest' →
    NumericLiteral strict literal' value' → literal'.length ≤ literal.length
  follow : NextNot IsIdentifierCharacter rest

/-- The literals in a base below ten: the ones with its prefix, and the legacy octal ones. -/
inductive OctalOrBinaryLiteral (strict : Bool) : List ℕ → List ℕ → Prop
  | nonDecimal {c radix s digits} (hradix : radixOf c = some radix) (hlt : radix < 10)
      (h : SeparatedDigits radix s digits) : OctalOrBinaryLiteral strict (0x30 :: c :: s) digits
  | legacyOctal {s digits} (hsloppy : strict = false) (hne : s ≠ []) (h : AreDigits 8 s digits) :
      OctalOrBinaryLiteral strict (0x30 :: s) digits

/-! ### Characters -/

variable {strict : Bool} {radix c d : ℕ} {s t e digits literal literal' rest rest' : List ℕ}
  {q : ℚ} {exponent : ℤ} {value value' : NumericValue}

/-- The letters of the prefixes, and their bases. -/
theorem radixOf_eq_some_iff : radixOf c = some radix ↔
    (c = 0x62 ∨ c = 0x42) ∧ radix = 2 ∨ (c = 0x6F ∨ c = 0x4F) ∧ radix = 8 ∨
      (c = 0x78 ∨ c = 0x58) ∧ radix = 16 := by
  constructor
  · rw [radixOf]
    split_ifs with hb ho hx
    · rintro ⟨⟩
      exact .inl ⟨hb, rfl⟩
    · rintro ⟨⟩
      exact .inr (.inl ⟨ho, rfl⟩)
    · rintro ⟨⟩
      exact .inr (.inr ⟨hx, rfl⟩)
    · rintro ⟨⟩
  · rintro (⟨rfl | rfl, rfl⟩ | ⟨rfl | rfl, rfl⟩ | ⟨rfl | rfl, rfl⟩) <;> rfl

/-- Each character of digits is a digit or a separator. -/
theorem SeparatedTail.mem (h : SeparatedTail radix s digits) (hc : c ∈ s) :
    (∃ d, IsDigit radix c d) ∨ c = 0x5F := by
  induction h with
  | nil => exact absurd hc List.not_mem_nil
  | digit hd _ ih =>
      rcases List.mem_cons.mp hc with rfl | hc
      · exact .inl ⟨_, hd⟩
      · exact ih hc
  | separator hd _ ih =>
      rcases List.mem_cons.mp hc with rfl | hc
      · exact .inr rfl
      · rcases List.mem_cons.mp hc with rfl | hc
        · exact .inl ⟨_, hd⟩
        · exact ih hc

/-- Each character of digits is a digit or a separator. -/
theorem SeparatedDigits.mem (h : SeparatedDigits radix s digits) (hc : c ∈ s) :
    (∃ d, IsDigit radix c d) ∨ c = 0x5F := by
  cases h with
  | mk hd tail => exact (SeparatedTail.digit hd tail).mem hc

/-- The last character of digits is a digit. -/
theorem SeparatedTail.last (h : SeparatedTail radix s digits) (hlast : s.getLast? = some c) :
    ∃ d, IsDigit radix c d := by
  induction h with
  | nil => cases hlast
  | @digit c' d s digits hd _ ih | @separator c' d s digits hd _ ih =>
      cases s with
      | nil =>
          cases hlast
          exact ⟨d, hd⟩
      | cons c'' s => exact ih (by simpa [List.getLast?_cons_cons] using hlast)

/-- Each digit with no separators between them is a digit. -/
theorem AreDigits.mem (h : AreDigits radix s digits) (hc : c ∈ s) : ∃ d, IsDigit radix c d := by
  induction h with
  | nil => exact absurd hc List.not_mem_nil
  | cons hd _ ih =>
      rcases List.mem_cons.mp hc with rfl | hc
      · exact ⟨_, hd⟩
      · exact ih hc

/-- A decimal integer consists of digits and separators. -/
theorem DecimalIntegerLiteral.mem (h : DecimalIntegerLiteral strict s digits) (hc : c ∈ s) :
    IsDecimalDigit c ∨ c = 0x5F := by
  have hdigit {c : ℕ} (h : (∃ d, IsDigit 10 c d) ∨ c = 0x5F) : IsDecimalDigit c ∨ c = 0x5F := by
    exact h.imp_left isDecimalDigit_iff.mpr
  cases h with
  | zero => exact .inl (by simpa using (List.mem_singleton.mp hc) ▸ (by decide))
  | nonZero hd _ tail => exact hdigit ((SeparatedTail.digit hd tail).mem hc)
  | nonOctal _ h _ =>
      rcases List.mem_cons.mp hc with rfl | hc
      · exact .inl (by decide)
      · exact hdigit (.inl (h.mem hc))

/-- A decimal literal without its exponent consists of digits, separators and a point. -/
theorem DecimalMantissa.mem (h : DecimalMantissa strict s q) (hc : c ∈ s) :
    IsDecimalDigit c ∨ c = 0x5F ∨ c = 0x2E := by
  have hdigit {t digits : List ℕ} (h : SeparatedDigits 10 t digits) (hc : c ∈ t) :
      IsDecimalDigit c ∨ c = 0x5F ∨ c = 0x2E := by
    rcases h.mem hc with hd | heq
    · exact .inl (isDecimalDigit_iff.mpr hd)
    · exact .inr (.inl heq)
  cases h with
  | integer h => exact (h.mem hc).imp_right .inl
  | point h hfraction =>
      rcases List.mem_append.mp hc with hc | hc
      · exact (h.mem hc).imp_right .inl
      · rcases List.mem_cons.mp hc with rfl | hc
        · exact .inr (.inr rfl)
        · cases hfraction with
          | none => exact absurd hc List.not_mem_nil
          | digits h => exact hdigit h hc
  | fraction h =>
      rcases List.mem_cons.mp hc with rfl | hc
      · exact .inr (.inr rfl)
      · exact hdigit h hc

/-- An exponent part consists of its indicator, a sign, digits and separators. -/
theorem ExponentPart.mem (h : ExponentPart e exponent) (hc : c ∈ e) :
    IsExponentIndicator c ∨ c = 0x2B ∨ c = 0x2D ∨ IsDecimalDigit c ∨ c = 0x5F := by
  cases h with
  | mk hindicator hsign h =>
      rcases List.mem_cons.mp hc with rfl | hc
      · exact .inl hindicator
      · rcases List.mem_append.mp hc with hc | hc
        · cases hsign <;> simp_all
        · rcases h.mem hc with hd | heq
          · exact .inr (.inr (.inr (.inl (isDecimalDigit_iff.mpr hd))))
          · exact .inr (.inr (.inr (.inr heq)))

/-- The last character of an exponent part is a digit. -/
theorem ExponentPart.last (h : ExponentPart e exponent) (hlast : e.getLast? = some c) :
    IsDecimalDigit c := by
  cases h with
  | mk _ _ h =>
      cases h with
      | mk hd tail =>
          rw [← List.singleton_append, ← List.append_assoc,
            List.getLast?_append_of_ne_nil _ (List.cons_ne_nil _ _)] at hlast
          exact isDecimalDigit_iff.mpr ((SeparatedTail.digit hd tail).last hlast)

/-- No exponent part begins with a digit. -/
theorem OptionalExponent.nextNot (h : OptionalExponent e exponent) : NextNot IsDecimalDigit e := by
  cases h with
  | none => exact nextNot_nil
  | part h =>
      cases h with
      | mk hindicator _ _ =>
          rw [nextNot_cons]
          rcases hindicator with rfl | rfl <;> decide

/-- A character of digits is one of identifiers. -/
theorem isIdentifierCharacter_of_isDigit (h : (∃ d, IsDigit radix c d) ∨ c = 0x5F) :
    IsIdentifierCharacter c := by
  rcases h with ⟨d, hd⟩ | rfl
  · rw [IsDigit] at hd
    rw [IsIdentifierCharacter]
    omega
  · decide

/-- The characters of a literal are those of identifiers, up to the points and signs of decimal
literals. -/
theorem NumericLiteral.identifier_or_decimal (h : NumericLiteral strict literal value) :
    (∀ c ∈ literal, IsIdentifierCharacter c) ∨
      ∃ s q e exponent, literal = s ++ e ∧ DecimalMantissa strict s q ∧
        OptionalExponent e exponent := by
  have hletters {radix c : ℕ} {s : List ℕ} (hradix : radixOf c = some radix)
      (h : ∀ c ∈ s, IsIdentifierCharacter c) : ∀ d ∈ 0x30 :: c :: s, IsIdentifierCharacter d := by
    rw [radixOf_eq_some_iff] at hradix
    have hc : IsIdentifierCharacter c := by
      rw [IsIdentifierCharacter]
      omega
    rw [List.forall_mem_cons, List.forall_mem_cons]
    exact ⟨by decide, hc, h⟩
  have hsuffix {s : List ℕ} (h : ∀ c ∈ s, IsIdentifierCharacter c) :
      ∀ c ∈ s ++ [0x6E], IsIdentifierCharacter c := by
    rw [List.forall_mem_append, List.forall_mem_singleton]
    exact ⟨h, by decide⟩
  cases h with
  | decimal h hexponent => exact .inr ⟨_, _, _, _, rfl, h, hexponent⟩
  | decimalBigInteger h =>
      refine .inl (hsuffix fun c hc => ?_)
      rcases h.mem hc with h | rfl
      · exact .inl h
      · decide
  | nonDecimal hradix h =>
      exact .inl (hletters hradix fun c hc => isIdentifierCharacter_of_isDigit (h.mem hc))
  | nonDecimalBigInteger hradix h =>
      exact .inl (hletters hradix (hsuffix fun c hc => isIdentifierCharacter_of_isDigit (h.mem hc)))
  | legacyOctal _ _ h =>
      refine .inl (List.forall_mem_cons.mpr ⟨by decide, fun c hc => ?_⟩)
      exact isIdentifierCharacter_of_isDigit (.inl (h.mem hc))

/-! ### The longest literal -/

/-- A character at the border of two texts is in the first or in the second one. -/
private theorem append_cons_cases {a b s t : List ℕ} (h : a ++ c :: b = s ++ t) :
    (∃ k, s = a ++ c :: k ∧ b = k ++ t) ∨ ∃ k, a = s ++ k ∧ k ++ c :: b = t := by
  rcases List.append_eq_append_iff.mp h with ⟨k, rfl, hk⟩ | ⟨k, rfl, rfl⟩
  · cases k with
    | nil => exact .inr ⟨[], by simp, by simpa using hk⟩
    | cons c' k =>
        rw [List.cons_append, List.cons.injEq] at hk
        obtain ⟨rfl, rfl⟩ := hk
        exact .inl ⟨k, rfl, rfl⟩
  · exact .inr ⟨k, rfl, rfl⟩

/-- The only character of a decimal literal without its exponent that is none of identifiers is the
point, behind an integer or at the beginning. -/
theorem DecimalMantissa.point_of_not (h : DecimalMantissa strict (s ++ c :: t) q)
    (hc : ¬ IsIdentifierCharacter c) :
    c = 0x2E ∧ (s = [] ∨ ∃ digits, DecimalIntegerLiteral strict s digits) := by
  have hinteger {u digits : List ℕ} (h : DecimalIntegerLiteral strict u digits) (hmem : c ∈ u) :
      False := by
    rcases h.mem hmem with h | rfl
    · exact hc (.inl h)
    · exact hc (by decide)
  generalize htext : s ++ c :: t = text at h
  cases h with
  | integer h => exact (hinteger h (by simp [← htext])).elim
  | point h hfraction =>
      rcases append_cons_cases htext with ⟨k, rfl, -⟩ | ⟨k, rfl, hk⟩
      · exact (hinteger h (by simp)).elim
      · cases k with
        | nil =>
            rw [List.nil_append, List.cons.injEq] at hk
            exact ⟨hk.1, .inr ⟨_, by rwa [List.append_nil]⟩⟩
        | cons d k =>
            rw [List.cons_append, List.cons.injEq] at hk
            cases hfraction with
            | none => exact absurd hk.2 (by simp)
            | digits ht =>
                exact (hc (isIdentifierCharacter_of_isDigit (ht.mem (by simp [← hk.2])))).elim
  | fraction h =>
      cases s with
      | nil =>
          rw [List.nil_append, List.cons.injEq] at htext
          exact ⟨htext.1, .inl rfl⟩
      | cons d s =>
          rw [List.cons_append, List.cons.injEq] at htext
          exact (hc (isIdentifierCharacter_of_isDigit (h.mem (by simp [← htext.2])))).elim

/-- The only character of an exponent part that is none of identifiers is its sign, behind the
indicator. -/
theorem ExponentPart.indicator_of_not (h : ExponentPart (s ++ c :: t) exponent)
    (hc : ¬ IsIdentifierCharacter c) : ∃ d, s = [d] ∧ IsExponentIndicator d := by
  generalize htext : s ++ c :: t = text at h
  cases h with
  | @mk indicator sign negative u digits hindicator hsign h =>
      have hnot (hmem : c ∈ u) : False := hc (isIdentifierCharacter_of_isDigit (h.mem hmem))
      cases s with
      | nil =>
          rw [List.nil_append, List.cons.injEq] at htext
          obtain ⟨rfl, -⟩ := htext
          rcases hindicator with rfl | rfl <;> exact absurd (by decide) hc
      | cons d s =>
          rw [List.cons_append, List.cons.injEq] at htext
          obtain ⟨rfl, htext⟩ := htext
          refine ⟨d, ?_, hindicator⟩
          rcases append_cons_cases htext with ⟨k, rfl, -⟩ | ⟨k, rfl, hk⟩
          · cases s with
            | nil => rfl
            | cons d' s =>
                -- no sign has two characters
                generalize hlong : d' :: s ++ c :: k = sign at hsign
                cases hsign <;> simp at hlong
          · exact (hnot (by simp [← hk])).elim

/-- No decimal literal ends with the indicator of an exponent. -/
theorem NumericLiteral.not_indicator (h : NumericLiteral strict (s ++ [c]) value)
    (hs : DecimalMantissa strict s q) (hc : IsExponentIndicator c) : False := by
  have hmem {d : ℕ} (hd : d ∈ s ++ [c]) :
      IsDecimalDigit d ∨ d = 0x5F ∨ d = 0x2E ∨ IsExponentIndicator d := by
    rcases List.mem_append.mp hd with hd | hd
    · rcases hs.mem hd with h | h | h <;> simp [h]
    · rw [List.mem_singleton.mp hd]
      exact .inr (.inr (.inr hc))
  have hletters {d radix : ℕ} (hd : d ∈ s ++ [c]) (hradix : radixOf d = some radix) : False := by
    have := hmem hd
    rw [radixOf_eq_some_iff] at hradix
    simp only [IsDecimalDigit, IsExponentIndicator] at this
    omega
  have hlast : (s ++ [c]).getLast? = some c := List.getLast?_concat
  have hindicator : ¬ IsDecimalDigit c := by
    rcases hc with rfl | rfl <;> decide
  generalize s ++ [c] = text at h hlast hletters
  cases h with
  | @decimal _ _ e _ h hexponent =>
      cases hexponent with
      | none =>
          rw [List.append_nil] at hlast
          have := h.mem (List.mem_of_getLast? hlast)
          rcases hc with rfl | rfl <;> exact absurd this (by decide)
      | part he =>
          have hne : e ≠ [] := by
            cases he
            exact List.cons_ne_nil _ _
          rw [List.getLast?_append_of_ne_nil _ hne] at hlast
          exact hindicator (he.last hlast)
  | decimalBigInteger _ =>
      rw [List.getLast?_concat, Option.some.injEq] at hlast
      subst hlast
      rcases hc with hc | hc <;> cases hc
  | nonDecimal hradix _ | nonDecimalBigInteger hradix _ =>
      exact hletters (List.mem_cons_of_mem _ List.mem_cons_self) hradix
  | legacyOctal _ _ h =>
      rcases List.mem_cons.mp (List.mem_of_getLast? hlast) with rfl | hmem
      · exact hindicator (by decide)
      · obtain ⟨d, hd⟩ := h.mem hmem
        rw [isDigit_iff_of_le (by decide)] at hd
        rcases hc with rfl | rfl <;> omega

/-- A literal is not empty. -/
theorem NumericLiteral.ne_nil (h : NumericLiteral strict literal value) : literal ≠ [] := by
  cases h with
  | decimal h _ =>
      cases h with
      | integer h => cases h <;> simp
      | point _ _ | fraction _ => simp
  | decimalBigInteger _ | nonDecimal _ _ | nonDecimalBigInteger _ _ | legacyOctal _ _ _ => simp

/-- **A literal is the longest one** if no character of an identifier follows it, and no point
behind an integer. -/
theorem NumericLiteral.length_le (h : NumericLiteral strict literal value)
    (hfollow : NextNot IsIdentifierCharacter rest)
    (hpoint : ∀ digits, DecimalIntegerLiteral strict literal digits → NextNot (· = 0x2E) rest)
    (h' : NumericLiteral strict literal' value') (htext : literal ++ rest = literal' ++ rest') :
    literal'.length ≤ literal.length := by
  by_contra hlt
  -- the longer literal goes on with the next character
  obtain ⟨c, k, rfl, rfl⟩ : ∃ c k, literal' = literal ++ c :: k ∧ rest = c :: (k ++ rest') := by
    rcases List.append_eq_append_iff.mp htext with ⟨k, rfl, rfl⟩ | ⟨k, rfl, -⟩
    · cases k with
      | nil => simp at hlt
      | cons c k => exact ⟨c, k, rfl, rfl⟩
    · simp at hlt
  rw [nextNot_cons] at hfollow
  simp only [nextNot_cons] at hpoint
  rcases h'.identifier_or_decimal with hall | ⟨s, q, e, exponent, heq, hs, he⟩
  · exact hfollow (hall c (by simp))
  rcases append_cons_cases heq with ⟨k', rfl, -⟩ | ⟨k', rfl, rfl⟩
  · obtain ⟨rfl, rfl | ⟨digits, hinteger⟩⟩ := hs.point_of_not hfollow
    · exact h.ne_nil rfl
    · exact hpoint digits hinteger rfl
  · generalize htext : k' ++ c :: k = text at he
    cases he with
    | none => simp at htext
    | part he =>
        subst htext
        obtain ⟨d, rfl, hindicator⟩ := he.indicator_of_not hfollow
        exact h.not_indicator hs hindicator

/-- A text begins with this longest literal. -/
theorem lexes_iff : Lexes strict t literal value rest ↔
    t = literal ++ rest ∧ NumericLiteral strict literal value ∧
      NextNot IsIdentifierCharacter rest ∧
        ∀ digits, DecimalIntegerLiteral strict literal digits → NextNot (· = 0x2E) rest := by
  constructor
  · rintro ⟨rfl, h, hlongest, hfollow⟩
    refine ⟨rfl, h, hfollow, fun digits hdigits => ?_⟩
    -- an integer in front of a point is not the longest literal
    rintro c hc rfl
    obtain ⟨rest, rfl⟩ := List.head?_eq_some_iff.mp hc
    have hpoint := NumericLiteral.decimal (DecimalMantissa.point hdigits .none) .none
    rw [List.append_nil] at hpoint
    have hlong := hlongest (literal ++ [0x2E]) _ rest (by simp) hpoint
    simp at hlong
  · rintro ⟨rfl, h, hfollow, hpoint⟩
    exact ⟨rfl, h, fun _ _ _ htext h' => h.length_le hfollow hpoint h' htext, hfollow⟩

/-! ### Exponents in other bases -/

/-- No decimal integer begins with octal digits behind a zero and ends there. -/
theorem not_decimalInteger {u digits' : List ℕ} (h : AreDigits 8 s digits) (hne : s ≠ [])
    (hinteger : DecimalIntegerLiteral strict u digits') (hrest : NextNot IsDecimalDigit rest)
    (hrest' : NextNot IsDecimalDigit rest') : u ++ rest ≠ 0x30 :: (s ++ rest') := by
  have hoctal {c : ℕ} (hc : c ∈ s) : IsOctalDigit c := isOctalDigit_iff.mpr (h.mem hc)
  have hdecimal {c : ℕ} (hc : c ∈ s) : IsDecimalDigit c :=
    ⟨(hoctal hc).1, (hoctal hc).2.trans (by decide)⟩
  intro htext
  cases hinteger with
  | zero =>
      rw [List.cons_append, List.nil_append, List.cons.injEq] at htext
      obtain ⟨-, rfl⟩ := htext
      cases s with
      | nil => exact hne rfl
      | cons c s => exact (nextNot_cons c).mp hrest (hdecimal List.mem_cons_self)
  | nonZero hd hne0 _ =>
      rw [List.cons_append, List.cons.injEq] at htext
      rw [htext.1, isDigit_iff_of_le (Nat.le_refl 10)] at hd
      omega
  | @nonOctal s' _ _ hs hdigit =>
      rw [List.cons_append, List.cons.injEq] at htext
      have hall (c : ℕ) (hc : c ∈ s') : IsDecimalDigit c := by
        exact isDecimalDigit_iff.mpr (hs.mem hc)
      obtain ⟨rfl, -⟩ := run_unique hall (fun c hc => hdecimal hc) hrest hrest' htext.2
      obtain ⟨c, hc, hnot⟩ := hdigit
      exact hnot (hoctal hc)

/-- An indicator of an exponent is neither a digit of a base up to ten nor a separator. -/
theorem IsExponentIndicator.not_digit (hc : IsExponentIndicator c) (hradix : radix ≤ 10) :
    ¬ ((∃ d, IsDigit radix c d) ∨ c = 0x5F) := by
  rintro (⟨d, hd⟩ | rfl)
  · rw [isDigit_iff_of_le hradix] at hd
    rcases hc with rfl | rfl <;> omega
  · exact absurd hc (by decide)

/-- An indicator of an exponent is no suffix. -/
theorem IsExponentIndicator.not_suffix (hc : IsExponentIndicator c) : c ≠ 0x6E := by
  rintro rfl
  exact absurd hc (by decide)

/-- The letter of a prefix is in no decimal literal. -/
theorem DecimalMantissa.not_mem_of_radixOf (h : DecimalMantissa strict s q)
    (he : OptionalExponent e exponent) (hradix : radixOf c = some radix) : c ∉ s ++ e := by
  rw [radixOf_eq_some_iff] at hradix
  intro hc
  rcases List.mem_append.mp hc with hc | hc
  · have := h.mem hc
    rw [IsDecimalDigit] at this
    omega
  · cases he with
    | none => exact absurd hc List.not_mem_nil
    | part he =>
        have := he.mem hc
        rw [IsExponentIndicator, IsDecimalDigit] at this
        omega

/-- No literal goes on with an exponent behind the digits of a prefixed base below ten. -/
private theorem not_numericLiteral_prefixed {p : ℕ} (hradix : radixOf p = some radix)
    (hlt : radix < 10) (hc : IsExponentIndicator c) :
    ¬ NumericLiteral strict (0x30 :: p :: (s ++ c :: t)) value := by
  have hmem : c ∈ s ++ c :: t := List.mem_append_right s List.mem_cons_self
  intro hliteral
  generalize htext : 0x30 :: p :: (s ++ c :: t) = text at hliteral
  have hp : p ∈ text := by
    rw [← htext]
    exact List.mem_cons_of_mem _ List.mem_cons_self
  cases hliteral with
  | decimal h he => exact h.not_mem_of_radixOf he hradix hp
  | decimalBigInteger h =>
      have hletters := radixOf_eq_some_iff.mp hradix
      rcases List.mem_append.mp hp with hp | hp
      · have := h.mem hp
        rw [IsDecimalDigit] at this
        omega
      · have := List.mem_singleton.mp hp
        omega
  | nonDecimal hradix' h =>
      simp only [List.cons.injEq] at htext
      obtain ⟨-, rfl, rfl⟩ := htext
      obtain rfl := Option.some.inj (hradix.symm.trans hradix')
      exact hc.not_digit hlt.le (h.mem hmem)
  | nonDecimalBigInteger hradix' h =>
      simp only [List.cons.injEq] at htext
      obtain ⟨-, rfl, htext⟩ := htext
      obtain rfl := Option.some.inj (hradix.symm.trans hradix')
      rw [htext] at hmem
      rcases List.mem_append.mp hmem with hmem | hmem
      · exact hc.not_digit hlt.le (h.mem hmem)
      · exact hc.not_suffix (List.mem_singleton.mp hmem)
  | legacyOctal _ _ h =>
      obtain ⟨-, rfl⟩ := List.cons.inj htext
      have hletters := radixOf_eq_some_iff.mp hradix
      obtain ⟨d, hd⟩ := h.mem List.mem_cons_self
      rw [isDigit_iff_of_le (by decide)] at hd
      omega

/-- No literal goes on with an exponent behind octal digits with a leading zero. -/
private theorem not_numericLiteral_octal (hne : s ≠ []) (h : AreDigits 8 s digits)
    (hc : IsExponentIndicator c) : ¬ NumericLiteral strict (0x30 :: (s ++ c :: t)) value := by
  have hend : NextNot IsDecimalDigit (c :: t) := by
    rw [nextNot_cons]
    rcases hc with rfl | rfl <;> decide
  intro hliteral
  generalize htext : 0x30 :: (s ++ c :: t) = text at hliteral
  cases hliteral with
  | decimal hs he =>
      cases hs with
      | integer hs => exact not_decimalInteger h hne hs he.nextNot hend htext.symm
      | point hs _ =>
          rw [List.append_assoc] at htext
          exact not_decimalInteger h hne hs ((nextNot_cons 0x2E).mpr (by decide)) hend htext.symm
      | fraction _ => cases htext
  | decimalBigInteger hs =>
      exact not_decimalInteger h hne hs ((nextNot_cons 0x6E).mpr (by decide)) hend htext.symm
  | @nonDecimal p _ _ _ hradix _ | @nonDecimalBigInteger p _ _ _ hradix _ =>
      have hp := radixOf_eq_some_iff.mp hradix
      cases s with
      | nil => exact hne rfl
      | cons a s =>
          simp only [List.cons_append, List.cons.injEq, true_and] at htext
          obtain ⟨d, hd⟩ := h.mem List.mem_cons_self
          rw [htext.1, isDigit_iff_of_le (by decide)] at hd
          omega
  | legacyOctal _ _ hs =>
      obtain ⟨-, rfl⟩ := List.cons.inj htext
      exact hc.not_digit (show 8 ≤ 10 by decide) (.inl (hs.mem (by simp)))

/-- **No literal goes on with an exponent** behind digits of a base below ten. -/
theorem OctalOrBinaryLiteral.not_numericLiteral (h : OctalOrBinaryLiteral strict s digits)
    (hc : IsExponentIndicator c) : ¬ NumericLiteral strict (s ++ c :: t) value := by
  cases h with
  | nonDecimal hradix hlt _ => exact not_numericLiteral_prefixed hradix hlt hc
  | legacyOctal _ hne h => exact not_numericLiteral_octal hne h hc

end BoaLigero.Lexer
