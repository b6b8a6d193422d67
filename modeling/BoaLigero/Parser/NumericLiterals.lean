import BoaLigero.Parser.NumericBeginning
import BoaLigero.Parser.NumericSuffix
import BoaLigero.String.ToNumber

/-!
# Numeric Literals

Which numeric literals are read as the language specification says: the longest literal of the
grammar that the text begins with, if no character of an identifier follows it, with its value.

All literals are, but for two kinds of texts. An exponent behind digits of a base below ten is read
as if the digits were decimal ones, since the base is not checked in front of an exponent as it is
in front of a point; and behind `0n` what follows is not checked.

## Main results

* `Scans.sound` — what is scanned is a literal, or misread.
* `NumericLiteral.scans` — every literal is scanned.
* `noPanic_lexNumberLiteral` — no unwrapped result is missing.
* `numeric_literals` — the texts that are read as specified.
-/

namespace BoaLigero.Lexer

open Digits

variable {strict legacyOctal : Bool} {init c base radix : ℕ}
  {s t u e text left middle rest digits : List ℕ} {buf : List Char} {kind : NumericKind}
  {cursor : Cursor} {startPos : Position} {exponent : ℤ} {value : NumericValue}
  {numeric : Numeric}

/-! ### What is scanned -/

/-- The beginning and the digits of a literal, with what follows them, are lexed: the buffer and the
kind. -/
def Scans (init : ℕ) (startPos : Position) (cursor : Cursor) (buf : List Char) (kind : NumericKind)
    (rest : List ℕ) : Prop :=
  ∃ front base legacyOctal middle,
    lexStart init startPos cursor = .ok (.digits front (.integer base) legacyOctal, middle) ∧
      Delivers (lexDigits init front (.integer base) legacyOctal middle) (buf, kind) rest

/-- All literals begin as integers. -/
private theorem Started.exists_base {front : List Char}
    (h : Started strict init text (.digits front kind legacyOctal) left) :
    ∃ base, kind = .integer base := by
  cases h <;> exact ⟨_, rfl⟩

section Lex

variable {parseFloat : List Char → Option F64} {parseBytes : ℕ → List Char → Option ℤ}
  {toF64 : ℤ → Option F64}

/-- The check behind the literal, and the number in the buffer. -/
private theorem finish_iff :
    Delivers (do
      fallible (checkAfterNumericLiteral cursor)
      let num ← convert parseFloat parseBytes toF64 buf kind
      return (num, cursor)) numeric rest ↔
      cursor.rest = rest ∧ NextNot IsIdentifierCharacter rest ∧
        convert parseFloat parseBytes toF64 buf kind = .ok numeric := by
  cases hcheck : checkAfterNumericLiteral cursor with
  | error e =>
      refine iff_of_false not_delivers_error ?_
      rintro ⟨rfl, hnext, -⟩
      rw [checkAfterNumericLiteral_iff.mpr hnext] at hcheck
      cases hcheck
  | ok u =>
      have hnext := checkAfterNumericLiteral_iff.mp hcheck
      cases hconvert : convert parseFloat parseBytes toF64 buf kind with
      | error e => exact iff_of_false not_delivers_error (by simp)
      | ok num =>
          refine delivers_ok.trans ?_
          constructor
          · rintro ⟨rfl, rfl⟩
            exact ⟨rfl, hnext, rfl⟩
          · rintro ⟨hrest, -, hok⟩
            exact ⟨Except.ok.inj hok, hrest⟩

/-- What the lexer delivers. -/
theorem lexNumberLiteral_iff :
    Delivers (lexNumberLiteral parseFloat parseBytes toF64 init startPos cursor) numeric rest ↔
      Started cursor.strict init cursor.rest (.finished numeric) rest ∨
        ∃ buf kind, Scans init startPos cursor buf kind rest ∧
          NextNot IsIdentifierCharacter rest ∧
            convert parseFloat parseBytes toF64 buf kind = .ok numeric := by
  rw [lexNumberLiteral, delivers_bind]
  constructor
  · rintro ⟨start, middle, hstart, h⟩
    cases start with
    | finished numeric' =>
        obtain ⟨rfl, rfl⟩ := delivers_ok.mp h
        exact .inl (lexStart_iff.mp ⟨middle, hstart, rfl⟩)
    | digits front kind legacyOctal =>
        obtain ⟨⟨buf, kind'⟩, last, hdigits, hfinish⟩ := delivers_bind.mp h
        obtain ⟨base, rfl⟩ := (lexStart_iff.mp ⟨middle, hstart, rfl⟩).exists_base
        obtain ⟨hrest, hnext, hconvert⟩ := finish_iff.mp hfinish
        exact .inr ⟨buf, kind', ⟨front, base, legacyOctal, middle, hstart, last, hdigits, hrest⟩,
          hnext, hconvert⟩
  · rintro (h | ⟨buf, kind, ⟨front, base, legacyOctal, middle, hstart, hdigits⟩, hnext, hconvert⟩)
    · obtain ⟨middle, hstart, hrest⟩ := lexStart_iff.mpr h
      exact ⟨_, middle, hstart, delivers_ok.mpr ⟨rfl, hrest⟩⟩
    · obtain ⟨last, hlast, rfl⟩ := hdigits
      exact ⟨_, middle, hstart, delivers_bind.mpr ⟨_, last, hlast,
        finish_iff.mpr ⟨rfl, hnext, hconvert⟩⟩⟩

/-- What is scanned behind a digit: an integer part, and what follows it. -/
theorem scans_iff (hinit : init ≠ 0x2E) (hnext : NextNot IsIdentifierCharacter rest) :
    Scans init startPos cursor buf kind rest ↔
      ∃ front base legacyOctal suffix pushed,
        ReadsInteger cursor.strict init cursor.rest front base legacyOctal (suffix ++ rest) ∧
          IntegerSuffix base legacyOctal rest suffix pushed kind ∧ buf = front ++ pushed := by
  constructor
  · rintro ⟨front, base, legacyOctal, middle, hstart, hdigits⟩
    rw [lexDigits, if_neg hinit, delivers_bind] at hdigits
    obtain ⟨front', last, htake, hlex⟩ := hdigits
    obtain ⟨suffix, pushed, hlast, rfl, hsuffix⟩ := (lexSuffix_iff hnext).mp hlex
    obtain ⟨s, hs, htail, hnot, hstop, rfl⟩ :=
      takeInteger_iff.mp ⟨last, fallible_eq_ok_iff.mp htake, hlast⟩
    exact ⟨_, base, legacyOctal, suffix, pushed, ⟨front, s, lexStart_iff.mp ⟨middle, hstart, hs⟩,
      htail, by simpa using hnot, hstop, rfl⟩, hsuffix, rfl⟩
  · rintro ⟨_, base, legacyOctal, suffix, pushed, ⟨front, s, hstarted, htail, hnot, hstop, rfl⟩,
      hsuffix, rfl⟩
    obtain ⟨middle, hstart, hs⟩ := (@lexStart_iff _ _ _ _ startPos).mpr hstarted
    have htakes : Delivers (takeInteger front middle (.integer base) !legacyOctal)
        (front ++ chars s) (suffix ++ rest) :=
      takeInteger_iff.mpr ⟨s, hs, htail, by simpa using hnot, hstop, rfl⟩
    obtain ⟨last, htake, hlast⟩ := htakes
    refine ⟨front, base, legacyOctal, middle, hstart, ?_⟩
    rw [lexDigits, if_neg hinit, delivers_bind]
    exact ⟨_, last, fallible_eq_ok_iff.mpr htake,
      (lexSuffix_iff hnext).mpr ⟨suffix, pushed, hlast, rfl, hsuffix⟩⟩

/-- What is scanned behind a point at the beginning. -/
theorem scans_point_iff (hnext : NextNot IsIdentifierCharacter rest) :
    Scans 0x2E startPos cursor buf kind rest ↔
      ∃ t fraction e exponent, cursor.rest = t ++ (e ++ rest) ∧ OptionalDigits t fraction ∧
        OptionalExponent e exponent ∧ buf = '.' :: (chars t ++ exponentChars e) ∧
          kind = .rational := by
  have hstart : lexStart 0x2E startPos cursor = .ok (.digits ['.'] (.integer 10) false, cursor) :=
    if_neg (by decide)
  constructor
  · rintro ⟨front, base, legacyOctal, middle, hstarted, hdigits⟩
    rw [hstart] at hstarted
    cases hstarted
    rw [lexDigits, if_pos rfl] at hdigits
    exact (lexFraction_iff hnext).mp hdigits
  · intro h
    refine ⟨_, _, _, _, hstart, ?_⟩
    rw [lexDigits, if_pos rfl]
    exact (lexFraction_iff hnext).mpr h

end Lex

/-! ### What the buffer spells -/

/-- Digits that may be left out are pushed as such. -/
theorem OptionalDigits.isDigits (h : OptionalDigits t digits) : IsDigits 10 (chars t) digits := by
  cases h with
  | none => exact .nil
  | digits h => exact h.isDigits.1

/-- An exponent part is pushed as one. -/
theorem ExponentPart.isExponent (h : ExponentPart e exponent) :
    IsExponent (exponentChars e) exponent := by
  cases h with
  | @mk _ sign negative s digits _ hsign h =>
      have hsign' : IsSign (chars sign) negative := by
        cases hsign
        · exact .none
        · exact .plus
        · exact .minus
      rw [exponentChars, chars_append]
      exact .part (.inr rfl) hsign' h.isDigits.2 h.isDigits.1

/-- An exponent part that may be left out is pushed as one. -/
theorem OptionalExponent.isExponent (h : OptionalExponent e exponent) :
    IsExponent (exponentChars e) exponent := by
  cases h with
  | none => exact .none
  | part h => exact h.isExponent

/-- An integer in the buffer. -/
theorem SameNumber.spells (h : SameNumber base buf digits) :
    Spells buf (.integer base) (.number (ofDigits base digits)) := by
  obtain ⟨hne, digits', hdigits, heq⟩ := h
  exact heq ▸ .integer hne hdigits

/-- A `BigInt` in the buffer. -/
theorem SameNumber.spells_bigInt (h : SameNumber base buf digits) :
    Spells buf (.bigInt base) (.bigInt (ofDigits base digits)) := by
  obtain ⟨hne, digits', hdigits, heq⟩ := h
  exact heq ▸ .bigInt hne hdigits

/-- An integer with a fraction in the buffer. -/
theorem SameNumber.spells_fraction {fraction : List ℕ} (h : SameNumber 10 buf digits)
    (hfraction : OptionalDigits t fraction) (hexponent : OptionalExponent e exponent) :
    Spells (buf ++ '.' :: (chars t ++ exponentChars e)) .rational
      (.number (ofDigits 10 (digits ++ fraction) / 10 ^ fraction.length * 10 ^ exponent)) := by
  obtain ⟨hne, digits', hdigits, heq⟩ := h
  have hvalue : ofDigits 10 (digits ++ fraction) = ofDigits 10 (digits' ++ fraction) := by
    rw [ofDigits_append, ofDigits_append, heq]
  rw [hvalue, show buf ++ '.' :: (chars t ++ exponentChars e) =
    buf ++ '.' :: chars t ++ exponentChars e by simp]
  exact .rational (.mk (.point hdigits hfraction.isDigits (.inl hne)) hexponent.isExponent)

/-- An integer with an exponent in the buffer. -/
theorem SameNumber.spells_exponent (h : SameNumber 10 buf digits)
    (hexponent : ExponentPart e exponent) :
    Spells (buf ++ exponentChars e) .rational (.number (ofDigits 10 digits * 10 ^ exponent)) := by
  obtain ⟨hne, digits', hdigits, heq⟩ := h
  exact heq ▸ .rational (.mk (.integer hne hdigits) hexponent.isExponent)

/-- Digits of a base below ten are read as decimal ones in front of an exponent. -/
theorem SameNumber.exists_spells (h : SameNumber base buf digits) (hbase : base ≤ 10)
    (hexponent : ExponentPart e exponent) :
    ∃ value, Spells (buf ++ exponentChars e) .rational value := by
  obtain ⟨hne, digits', hdigits, -⟩ := h
  have hdecimal : IsDigits 10 buf digits' := hdigits.imp fun c d hd => by
    rw [toDigit_eq_some_iff] at hd ⊢
    exact ⟨hd.1.trans_le hbase, hd.2⟩
  exact ⟨_, SameNumber.spells_exponent ⟨hne, digits', hdecimal, rfl⟩ hexponent⟩

/-! ### What is read as specified -/

/-- The texts that are misread: an exponent behind digits of a base below ten, which is read as if
these were decimal ones, and characters of an identifier behind `0n`, which are not rejected. -/
inductive MisreadNumber (strict : Bool) : List ℕ → Prop
  | exponent {s digits e rest : List ℕ} {exponent : ℤ} (h : OctalOrBinaryLiteral strict s digits)
      (he : ExponentPart e exponent) (hnext : NextNot IsIdentifierCharacter rest) :
      MisreadNumber strict (s ++ (e ++ rest))
  | zero {c : ℕ} {rest : List ℕ} (hc : IsIdentifierCharacter c) :
      MisreadNumber strict (0x30 :: 0x6E :: c :: rest)

/-- What is misread begins with a zero. -/
theorem MisreadNumber.exists_zero (h : MisreadNumber strict text) : ∃ t, text = 0x30 :: t := by
  cases h with
  | exponent h _ _ =>
      cases h with
      | nonDecimal _ _ _ | legacyOctal _ _ _ => exact ⟨_, rfl⟩
  | zero _ => exact ⟨_, rfl⟩

/-- The literal at the beginning of a text is read as the specification says: what is accepted, what
is left, and the value. -/
structure NumberConforms (strict : Bool) (text : List ℕ)
    (result : Except Failure (Numeric × Cursor)) : Prop where
  sound : ∀ numeric rest, Delivers result numeric rest →
    ∃ literal value, Lexes strict text literal value rest ∧ numeric.Denotes value
  complete : ∀ literal value rest, Lexes strict text literal value rest →
    ∃ numeric, Delivers result numeric rest ∧ numeric.Denotes value

/-- An integer part is a literal. -/
theorem IntegerPart.numericLiteral (h : IntegerPart strict u digits base legacyOctal) :
    NumericLiteral strict u (.number (ofDigits base digits)) := by
  cases h with
  | decimal h _ =>
      have hliteral := NumericLiteral.decimal (DecimalMantissa.integer h) .none
      rwa [List.append_nil, zpow_zero, mul_one] at hliteral
  | nonDecimal hradix h => exact .nonDecimal hradix h
  | legacyOctal hsloppy hne h => exact .legacyOctal hsloppy hne h

/-- An integer part without a leading zero is that of a `BigInt`. -/
theorem IntegerPart.numericLiteral_bigInt (h : IntegerPart strict u digits base false) :
    NumericLiteral strict (u ++ [0x6E]) (.bigInt (ofDigits base digits)) := by
  cases h with
  | decimal h hlegacy =>
      cases h with
      | zero | nonOctal _ _ _ => simp at hlegacy
      | nonZero hd hne htail => exact .decimalBigInteger (.nonZero hd hne htail)
  | nonDecimal hradix h => exact .nonDecimalBigInteger hradix h

/-- An integer part in base ten is a decimal integer. -/
theorem IntegerPart.decimalIntegerLiteral (h : IntegerPart strict u digits 10 legacyOctal) :
    DecimalIntegerLiteral strict u digits := by
  generalize hbase : 10 = base at h
  cases h with
  | decimal h _ => exact h
  | nonDecimal hradix _ =>
      rw [radixOf_eq_some_iff] at hradix
      omega
  | legacyOctal _ _ _ => cases hbase

/-- A literal with another character is no decimal integer. -/
theorem not_decimalIntegerLiteral_of_mem (hc : c ∈ u) (hnot : ¬ IsDecimalDigit c) (hne : c ≠ 0x5F) :
    ¬ DecimalIntegerLiteral strict u digits := fun h => (h.mem hc).elim hnot hne

/-- An integer part in another base is no decimal integer. -/
theorem IntegerPart.not_decimalIntegerLiteral {digits' : List ℕ}
    (h : IntegerPart strict u digits base legacyOctal) (hbase : base ≠ 10) :
    ¬ DecimalIntegerLiteral strict u digits' := by
  cases h with
  | decimal _ _ => exact absurd rfl hbase
  | @nonDecimal c _ _ _ hradix _ =>
      rw [radixOf_eq_some_iff] at hradix
      refine not_decimalIntegerLiteral_of_mem (List.mem_cons_of_mem _ List.mem_cons_self) ?_ ?_
      · rw [IsDecimalDigit]
        omega
      · omega
  | legacyOctal _ hne h =>
      intro hinteger
      exact not_decimalInteger h hne hinteger nextNot_nil nextNot_nil (by simp)

/-- The bases of integer parts. -/
theorem IntegerPart.base_cases (h : IntegerPart strict u digits base legacyOctal) :
    base = 10 ∨ base = 16 ∨ OctalOrBinaryLiteral strict u digits ∧ base < 10 := by
  cases h with
  | decimal _ _ => exact .inl rfl
  | nonDecimal hradix h =>
      have hbases := radixOf_eq_some_iff.mp hradix
      by_cases hlt : base < 10
      · exact .inr (.inr ⟨.nonDecimal hradix hlt h, hlt⟩)
      · omega
  | legacyOctal hsloppy hne h => exact .inr (.inr ⟨.legacyOctal hsloppy hne h, by decide⟩)

/-- **What is scanned behind a digit** is a literal, or misread. -/
theorem Scans.sound (h : Scans init startPos cursor buf kind rest) (hinit : IsDecimalDigit init)
    (hnext : NextNot IsIdentifierCharacter rest) :
    (∃ literal value, Lexes cursor.strict (init :: cursor.rest) literal value rest ∧
      Spells buf kind value) ∨
    MisreadNumber cursor.strict (init :: cursor.rest) ∧ ∃ value, Spells buf kind value := by
  have hpoint : init ≠ 0x2E := by
    rintro rfl
    exact absurd hinit (by decide)
  obtain ⟨front, base, legacyOctal, suffix, pushed, hread, hsuffix, rfl⟩ :=
    (scans_iff hpoint hnext).mp h
  have hstop : NextNot (IsDigitOrSeparator base) (suffix ++ rest) := by
    obtain ⟨_, _, _, _, _, hstop, _⟩ := hread
    exact hstop
  obtain ⟨u, digits, htext, hpart, hsame⟩ := hread.sound hinit
  cases hsuffix with
  | none hpoint =>
      refine .inl ⟨u, _, lexes_iff.mpr ⟨htext, hpart.numericLiteral, hnext, fun _ hinteger => ?_⟩,
        by simpa using hsame.spells⟩
      by_cases hbase : base = 10
      · exact hpoint hbase
      · exact absurd hinteger (hpart.not_decimalIntegerLiteral hbase)
  | bigInt hlegacy =>
      subst hlegacy
      refine .inl ⟨u ++ [0x6E], _, lexes_iff.mpr ⟨by rw [htext]; simp, hpart.numericLiteral_bigInt,
        hnext, fun _ hinteger => ?_⟩, by simpa using hsame.spells_bigInt⟩
      exact absurd hinteger (not_decimalIntegerLiteral_of_mem (c := 0x6E) (by simp) (by decide)
        (by decide))
  | @fraction t fraction e exponent hbase hfraction hexponent =>
      subst hbase
      have hliteral := NumericLiteral.decimal (.point hpart.decimalIntegerLiteral hfraction)
        hexponent
      refine .inl ⟨_, _, lexes_iff.mpr ⟨by rw [htext]; simp, hliteral, hnext,
        fun _ hinteger => ?_⟩, hsame.spells_fraction hfraction hexponent⟩
      exact absurd hinteger (not_decimalIntegerLiteral_of_mem (c := 0x2E) (by simp) (by decide)
        (by decide))
  | @exponent _ exponent hexponent =>
      obtain ⟨c, t, hsuffix, hc⟩ : ∃ c t, suffix = c :: t ∧ IsExponentIndicator c := by
        cases hexponent with
        | mk hindicator _ _ => exact ⟨_, _, rfl, hindicator⟩
      obtain rfl | rfl | ⟨hother, hlt⟩ := hpart.base_cases
      · have hliteral := NumericLiteral.decimal (.integer hpart.decimalIntegerLiteral)
          (.part hexponent)
        refine .inl ⟨_, _, lexes_iff.mpr ⟨by rw [htext]; simp, hliteral, hnext,
          fun _ hinteger => ?_⟩, hsame.spells_exponent hexponent⟩
        refine absurd hinteger (not_decimalIntegerLiteral_of_mem (c := c) (by simp [hsuffix]) ?_ ?_)
        · rcases hc with rfl | rfl <;> decide
        · rcases hc with rfl | rfl <;> decide
      · -- the indicator is a hexadecimal digit
        rw [hsuffix, List.cons_append, nextNot_cons] at hstop
        refine absurd (.inl ⟨14, ?_⟩) hstop
        rcases hc with rfl | rfl <;> simp [IsDigit]
      · rw [htext]
        exact .inr ⟨.exponent hother hexponent hnext, hsame.exists_spells hlt.le hexponent⟩

/-- What is scanned behind a point at the beginning is a literal. -/
theorem Scans.sound_point (h : Scans 0x2E startPos cursor buf kind rest)
    (hfirst : cursor.rest = c :: t) (hc : IsDecimalDigit c)
    (hnext : NextNot IsIdentifierCharacter rest) :
    ∃ literal value, Lexes cursor.strict (0x2E :: cursor.rest) literal value rest ∧
      Spells buf kind value := by
  obtain ⟨t, fraction, e, exponent, htext, hfraction, hexponent, rfl, rfl⟩ :=
    (scans_point_iff hnext).mp h
  have hliteral {digits : List ℕ} (h : SeparatedDigits 10 t digits) :=
    NumericLiteral.decimal (@DecimalMantissa.fraction cursor.strict _ _ h) hexponent
  cases hfraction with
  | none =>
      -- a digit comes next
      rw [hfirst, List.nil_append] at htext
      have hstop := hexponent.nextNot_append hnext
      rw [← htext, nextNot_cons] at hstop
      exact absurd (.inl (isDecimalDigit_iff.mp hc)) hstop
  | digits h =>
      refine ⟨_, _, lexes_iff.mpr ⟨by rw [htext]; simp, hliteral h, hnext,
        fun _ hinteger => ?_⟩, ?_⟩
      · exact absurd hinteger (not_decimalIntegerLiteral_of_mem (c := 0x2E) (by simp) (by decide)
          (by decide))
      · have hpoint : IsMantissa ('.' :: chars t) (ofDigits 10 fraction / 10 ^ fraction.length) :=
          @IsMantissa.point [] [] _ _ .nil h.isDigits.1 (.inr h.isDigits.2)
        exact .rational (.mk hpoint hexponent.isExponent)

/-- An integer part begins with a decimal digit, and its base is at most sixteen. -/
private theorem IntegerPart.first (h : IntegerPart strict u digits base legacyOctal) :
    (∃ c u', u = c :: u' ∧ IsDecimalDigit c) ∧ base ≤ 16 := by
  cases h with
  | decimal h _ =>
      refine ⟨?_, by decide⟩
      cases h with
      | zero | nonOctal _ _ _ => exact ⟨_, _, rfl, by decide⟩
      | nonZero hd _ _ =>
          exact ⟨_, _, rfl, isDecimalDigit_iff.mpr ⟨_, hd⟩⟩
  | nonDecimal hradix _ =>
      rw [radixOf_eq_some_iff] at hradix
      exact ⟨⟨_, _, rfl, by decide⟩, by omega⟩
  | legacyOctal _ _ _ => exact ⟨⟨_, _, rfl, by decide⟩, by decide⟩

/-- What follows an integer part does not begin with a digit of its base. -/
private theorem IntegerSuffix.nextNot {suffix : List ℕ} {pushed : List Char}
    (h : IntegerSuffix base legacyOctal rest suffix pushed kind)
    (hnext : NextNot IsIdentifierCharacter rest) (hradix : radix ≤ 16)
    (hexponent : kind = .rational → radix ≤ 10) :
    NextNot (IsDigitOrSeparator radix) (suffix ++ rest) := by
  have hother {c : ℕ} {t : List ℕ} (hc : c = 0x6E ∨ c = 0x2E) :
      NextNot (IsDigitOrSeparator radix) (c :: t) := by
    rw [nextNot_cons]
    rintro (⟨d, hd⟩ | rfl)
    · rw [IsDigit] at hd
      omega
    · omega
  cases h with
  | none _ => exact nextNot_digitOrSeparator hnext
  | bigInt _ => exact hother (.inl rfl)
  | fraction _ _ _ => exact hother (.inr rfl)
  | exponent h =>
      obtain ⟨c, t, heq, hc⟩ := h.exists_indicator (rfl : suffix ++ rest = suffix ++ rest)
      rw [heq, nextNot_cons]
      exact hc.not_digit (hexponent rfl)

/-- What follows a zero is no letter of a prefix or suffix. -/
private theorem exists_other_of_suffix {suffix : List ℕ} {pushed : List Char}
    (h : IntegerSuffix 10 true rest suffix pushed kind) (hnext : NextNot IsIdentifierCharacter rest)
    (hne : suffix ++ rest ≠ []) :
    ∃ c t, suffix ++ rest = c :: t ∧ radixOf c = none ∧ c ≠ 0x6E := by
  cases h with
  | none _ =>
      cases rest with
      | nil => exact absurd rfl hne
      | cons c t =>
          rw [nextNot_cons, IsIdentifierCharacter] at hnext
          refine ⟨c, t, rfl, ?_, by omega⟩
          rw [radixOf, if_neg (by omega), if_neg (by omega), if_neg (by omega)]
  | bigInt hlegacy => cases hlegacy
  | fraction _ _ _ => exact ⟨_, _, rfl, by decide, by decide⟩
  | exponent h =>
      obtain ⟨c, t, heq, hc⟩ := h.exists_indicator (rfl : suffix ++ rest = suffix ++ rest)
      refine ⟨c, t, heq, ?_, ?_⟩
      · rcases hc with rfl | rfl <;> decide
      · rcases hc with rfl | rfl <;> decide

/-- **An integer part is scanned** with what follows it. -/
theorem IntegerPart.scans {suffix : List ℕ} {pushed : List Char}
    (h : IntegerPart cursor.strict u digits base legacyOctal)
    (hsuffix : IntegerSuffix base legacyOctal rest suffix pushed kind)
    (htext : init :: cursor.rest = u ++ (suffix ++ rest))
    (hnext : NextNot IsIdentifierCharacter rest) (hexponent : kind = .rational → base ≤ 10)
    (hzero : u = [0x30] → suffix ++ rest ≠ []) :
    ∃ front, SameNumber base front digits ∧
      Scans init startPos cursor (front ++ pushed) kind rest := by
  obtain ⟨⟨c, u', rfl, hc⟩, hbase⟩ := h.first
  have hinit : init ≠ 0x2E := by
    rw [(List.cons.inj htext).1]
    rintro rfl
    exact absurd hc (by decide)
  have hletter (hu : c :: u' = [0x30]) :
      ∃ c t, suffix ++ rest = c :: t ∧ radixOf c = none ∧ c ≠ 0x6E := by
    cases hu
    generalize hone : [0x30] = u at h
    cases h with
    | decimal h hlegacy =>
        subst hone
        obtain rfl := hlegacy.mpr rfl
        exact exists_other_of_suffix hsuffix hnext (hzero rfl)
    | nonDecimal _ _ => cases hone
    | legacyOctal _ hne _ => exact absurd (List.cons.inj hone).2.symm hne
  obtain ⟨front, hread, hsame⟩ := h.read htext (hsuffix.nextNot hnext hbase hexponent)
    (hsuffix.nextNot hnext (by decide) fun _ => Nat.le_refl 10) hletter
  exact ⟨front, hsame, (scans_iff hinit hnext).mpr
    ⟨front, base, legacyOctal, suffix, pushed, hread, hsuffix, rfl⟩⟩

/-- A decimal integer as an integer part. -/
private theorem DecimalIntegerLiteral.integerPart (h : DecimalIntegerLiteral strict s digits) :
    IntegerPart strict s digits 10 (decide (s.head? = some 0x30)) := .decimal h decide_eq_true_iff

/-- A literal without an exponent has its value. -/
private theorem number_mul_zpow_zero (q : ℚ) :
    NumericValue.number (q * 10 ^ (0 : ℤ)) = .number q := by
  rw [zpow_zero, mul_one]

/-- The literal `0` at the end of the text. -/
private theorem started_zero (h : DecimalIntegerLiteral strict [0x30] digits) (exponent : ℤ) :
    ∃ numeric, Started strict 0x30 [] (.finished numeric) [] ∧
      numeric.Denotes (.number (ofDigits 10 digits * 10 ^ exponent)) := by
  refine ⟨_, .zero, ?_⟩
  obtain rfl : digits = [0] := by
    generalize hzero : [0x30] = s at h
    cases h with
    | zero => rfl
    | nonZero hd hne _ =>
        cases hzero
        rw [isDigit_iff_of_le (Nat.le_refl 10)] at hd
        omega
    | nonOctal _ _ hdigit =>
        cases hzero
        obtain ⟨c, hc, -⟩ := hdigit
        exact absurd hc List.not_mem_nil
  have hvalue : (ofDigits 10 [0] : ℚ) * 10 ^ exponent = 0 := by
    rw [show ofDigits 10 [0] = 0 from rfl, Nat.cast_zero, zero_mul]
  rw [hvalue]
  rfl

/-- **Every literal is scanned**, in front of what may follow it. -/
theorem NumericLiteral.scans {literal : List ℕ} (h : NumericLiteral cursor.strict literal value)
    (htext : init :: cursor.rest = literal ++ rest) (hnext : NextNot IsIdentifierCharacter rest)
    (hpoint : ∀ digits, DecimalIntegerLiteral cursor.strict literal digits →
      NextNot (· = 0x2E) rest) :
    (∃ numeric, Started cursor.strict init cursor.rest (.finished numeric) rest ∧
      numeric.Denotes value) ∨
    ∃ buf kind, Scans init startPos cursor buf kind rest ∧ Spells buf kind value := by
  cases h with
  | @decimal s q e exponent h hexponent =>
      rw [List.append_assoc] at htext
      cases h with
      | @integer _ digits h =>
          by_cases hend : s = [0x30] → e ++ rest ≠ []
          · cases hexponent with
            | none =>
                rw [List.append_nil] at hpoint
                rw [number_mul_zpow_zero]
                obtain ⟨front, hsame, hscans⟩ := h.integerPart.scans
                  (.none fun _ => hpoint _ h) htext hnext (by simp) hend
                exact .inr ⟨_, _, hscans, by simpa using hsame.spells⟩
            | part hexponent =>
                obtain ⟨front, hsame, hscans⟩ := h.integerPart.scans
                  (.exponent hexponent) htext hnext (by simp) hend
                exact .inr ⟨_, _, hscans, hsame.spells_exponent hexponent⟩
          · simp only [Classical.not_imp, not_not, List.append_eq_nil_iff] at hend
            obtain ⟨rfl, rfl, rfl⟩ := hend
            obtain ⟨rfl, hrest⟩ := List.cons.inj htext
            rw [hrest]
            exact .inl (started_zero h exponent)
      | point h hfraction =>
          obtain ⟨front, hsame, hscans⟩ := h.integerPart.scans
            (.fraction rfl hfraction hexponent) (by simpa using htext) hnext (by simp) (by simp)
          exact .inr ⟨_, _, hscans, hsame.spells_fraction hfraction hexponent⟩
      | @fraction t fraction h =>
          obtain ⟨rfl, hrest⟩ := List.cons.inj htext
          have hmantissa :
              IsMantissa ('.' :: chars t) (ofDigits 10 fraction / 10 ^ fraction.length) :=
            @IsMantissa.point [] [] _ _ .nil h.isDigits.1 (.inr h.isDigits.2)
          exact .inr ⟨_, _, (scans_point_iff hnext).mpr
            ⟨t, fraction, e, exponent, hrest, .digits h, hexponent, rfl, rfl⟩,
            .rational (.mk hmantissa hexponent.isExponent)⟩
  | @decimalBigInteger s digits h =>
      rw [List.append_assoc] at htext
      cases h with
      | zero =>
          obtain ⟨rfl, hrest⟩ := List.cons.inj htext
          rw [hrest]
          exact .inl ⟨_, .zeroBigInt, rfl⟩
      | @nonZero c d s digits hd hne htail =>
          have hzero : c ≠ 0x30 := by
            rintro rfl
            rw [isDigit_iff_of_le (Nat.le_refl 10)] at hd
            omega
          obtain ⟨front, hsame, hscans⟩ := IntegerPart.scans
            (.decimal (.nonZero hd hne htail) (by simpa using hzero)) (.bigInt rfl) htext hnext
            (by simp) (by simp)
          exact .inr ⟨_, _, hscans, by simpa using hsame.spells_bigInt⟩
      | nonOctal hstrict _ _ => cases hstrict
  | @nonDecimal _ radix _ _ hradix h =>
      have hten : radix ≠ 10 := by
        rw [radixOf_eq_some_iff] at hradix
        omega
      obtain ⟨front, hsame, hscans⟩ := IntegerPart.scans (.nonDecimal hradix h)
        (.none fun heq => absurd heq hten) htext hnext (by simp) (by simp)
      exact .inr ⟨_, _, hscans, by simpa using hsame.spells⟩
  | nonDecimalBigInteger hradix h =>
      obtain ⟨front, hsame, hscans⟩ := IntegerPart.scans (.nonDecimal hradix h) (.bigInt rfl)
        (by simpa using htext) hnext (by simp) (by simp)
      exact .inr ⟨_, _, hscans, by simpa using hsame.spells_bigInt⟩
  | legacyOctal hsloppy hne h =>
      obtain ⟨front, hsame, hscans⟩ := IntegerPart.scans (.legacyOctal hsloppy hne h)
        (.none (by simp)) htext hnext (by simp) (by simp [hne])
      exact .inr ⟨_, _, hscans, by simpa using hsame.spells⟩

/-- Digits of a base below ten are an integer part. -/
theorem OctalOrBinaryLiteral.exists_integerPart (h : OctalOrBinaryLiteral strict s digits) :
    ∃ base legacyOctal, base < 10 ∧ IntegerPart strict s digits base legacyOctal ∧ s ≠ [0x30] := by
  cases h with
  | nonDecimal hradix hlt h => exact ⟨_, _, hlt, .nonDecimal hradix h, by simp⟩
  | legacyOctal hsloppy hne h => exact ⟨_, _, by decide, .legacyOctal hsloppy hne h, by simp [hne]⟩

/-- What is finished behind a zero is a literal, or misread. -/
private theorem Started.sound_finished (h : Started strict init text (.finished numeric) rest) :
    (∃ literal value, Lexes strict (init :: text) literal value rest ∧ numeric.Denotes value) ∨
      MisreadNumber strict (init :: text) := by
  cases h with
  | zero =>
      have hliteral := (@DecimalIntegerLiteral.zero strict).integerPart.numericLiteral
      refine .inl ⟨[0x30], _, lexes_iff.mpr
        ⟨rfl, hliteral, nextNot_nil, fun _ _ => nextNot_nil⟩, ?_⟩
      rw [show ofDigits 10 [0] = 0 from rfl, Nat.cast_zero]
      rfl
  | zeroBigInt =>
      cases rest with
      | nil =>
          exact .inl ⟨[0x30, 0x6E], _, lexes_iff.mpr
            ⟨rfl, .decimalBigInteger .zero, nextNot_nil, fun _ _ => nextNot_nil⟩, rfl⟩
      | cons c t =>
          by_cases hc : IsIdentifierCharacter c
          · exact .inr (.zero hc)
          · refine .inl ⟨[0x30, 0x6E], _, lexes_iff.mpr
              ⟨rfl, .decimalBigInteger .zero, (nextNot_cons c).mpr hc, fun _ hinteger => ?_⟩, rfl⟩
            exact absurd hinteger
              (not_decimalIntegerLiteral_of_mem (c := 0x6E) (by simp) (by decide) (by decide))

section Conformance

variable {parseFloat : List Char → Option F64} {parseBytes : ℕ → List Char → Option ℤ}
  {toF64 : ℤ → Option F64} (hfloats : ReadsFloats parseFloat)
  (hintegers : JsBigInt.ReadsIntegers parseBytes) (hrounds : RoundsIntegers toF64)

include hfloats hintegers hrounds

/-- What is scanned is delivered with the value that the buffer spells. -/
private theorem Scans.delivers (h : Scans init startPos cursor buf kind rest)
    (hnext : NextNot IsIdentifierCharacter rest) (hspells : Spells buf kind value) :
    ∃ numeric, Delivers (lexNumberLiteral parseFloat parseBytes toF64 init startPos cursor) numeric
      rest ∧ numeric.Denotes value := by
  obtain ⟨numeric, hconvert, hdenotes⟩ := convert_spec hfloats hintegers hrounds hspells
  exact ⟨numeric, lexNumberLiteral_iff.mpr (.inr ⟨buf, kind, h, hnext, hconvert⟩), hdenotes⟩

/-- **Every literal is delivered** with its value. -/
theorem Lexes.delivers {literal : List ℕ}
    (h : Lexes cursor.strict (init :: cursor.rest) literal value rest) :
    ∃ numeric, Delivers (lexNumberLiteral parseFloat parseBytes toF64 init startPos cursor) numeric
      rest ∧ numeric.Denotes value := by
  obtain ⟨htext, hliteral, hnext, hpoint⟩ := lexes_iff.mp h
  obtain ⟨numeric, hstart, hdenotes⟩ | ⟨buf, kind, hscans, hspells⟩ :=
    hliteral.scans htext hnext hpoint
  · exact ⟨numeric, lexNumberLiteral_iff.mpr (.inl hstart), hdenotes⟩
  · exact hscans.delivers hfloats hintegers hrounds hnext hspells

/-- **What is misread is delivered**, where no literal ends. -/
theorem MisreadNumber.delivers (h : MisreadNumber cursor.strict (init :: cursor.rest)) :
    ∃ numeric rest, Delivers (lexNumberLiteral parseFloat parseBytes toF64 init startPos cursor)
      numeric rest ∧
        ∀ literal value, ¬ Lexes cursor.strict (init :: cursor.rest) literal value rest := by
  generalize htext : init :: cursor.rest = text at h
  cases h with
  | @zero c rest hc =>
      obtain ⟨rfl, hrest⟩ := List.cons.inj htext
      refine ⟨.bigInt 0, c :: rest, lexNumberLiteral_iff.mpr (.inl (hrest ▸ .zeroBigInt)),
        fun literal value h => ?_⟩
      exact (nextNot_cons c).mp h.follow hc
  | @exponent s digits e rest _ h he hnext =>
      obtain ⟨base, legacyOctal, hlt, hpart, hne⟩ := h.exists_integerPart
      obtain ⟨front, hsame, hscans⟩ := hpart.scans (.exponent he) htext hnext (fun _ => hlt.le)
        fun heq => absurd heq hne
      obtain ⟨value, hspells⟩ := hsame.exists_spells hlt.le he
      obtain ⟨numeric, hdelivers, -⟩ := hscans.delivers hfloats hintegers hrounds hnext hspells
      refine ⟨numeric, rest, hdelivers, fun literal value hlexes => ?_⟩
      have hliteral := hlexes.isLiteral
      have heq := hlexes.text_eq
      rw [← List.append_assoc, List.append_cancel_right_eq] at heq
      cases he with
      | mk hindicator _ _ =>
          rw [← heq] at hliteral
          exact h.not_numericLiteral hindicator hliteral

/-- What is delivered is a literal with its value, or misread. -/
theorem lexes_or_misread
    (hstart : IsDecimalDigit init ∨ init = 0x2E ∧ ∃ c t, cursor.rest = c :: t ∧ IsDecimalDigit c)
    (h : Delivers (lexNumberLiteral parseFloat parseBytes toF64 init startPos cursor) numeric
      rest) :
    (∃ literal value, Lexes cursor.strict (init :: cursor.rest) literal value rest ∧
      numeric.Denotes value) ∨ MisreadNumber cursor.strict (init :: cursor.rest) := by
  have hspelled {buf : List Char} {kind : NumericKind} {value : NumericValue}
      (hspells : Spells buf kind value)
      (hconvert : convert parseFloat parseBytes toF64 buf kind = .ok numeric) :
      numeric.Denotes value := by
    obtain ⟨numeric', hok, hdenotes⟩ := convert_spec hfloats hintegers hrounds hspells
    rw [hconvert] at hok
    exact Except.ok.inj hok ▸ hdenotes
  obtain hfinished | ⟨buf, kind, hscans, hnext, hconvert⟩ := lexNumberLiteral_iff.mp h
  · exact hfinished.sound_finished
  · obtain hinit | ⟨rfl, c, t, hrest, hc⟩ := hstart
    · obtain ⟨literal, value, hlexes, hspells⟩ | ⟨hmisread, -⟩ := hscans.sound hinit hnext
      · exact .inl ⟨literal, value, hlexes, hspelled hspells hconvert⟩
      · exact .inr hmisread
    · obtain ⟨literal, value, hlexes, hspells⟩ := hscans.sound_point hrest hc hnext
      exact .inl ⟨literal, value, hlexes, hspelled hspells hconvert⟩

/-- **The literals that are read as specified.** -/
theorem numberConforms_iff
    (hstart : IsDecimalDigit init ∨ init = 0x2E ∧ ∃ c t, cursor.rest = c :: t ∧ IsDecimalDigit c) :
    NumberConforms cursor.strict (init :: cursor.rest)
        (lexNumberLiteral parseFloat parseBytes toF64 init startPos cursor) ↔
      ¬ MisreadNumber cursor.strict (init :: cursor.rest) := by
  constructor
  · intro h hmisread
    have hdelivered : ∃ numeric rest,
        Delivers (lexNumberLiteral parseFloat parseBytes toF64 init startPos cursor) numeric rest ∧
          ∀ literal value, ¬ Lexes cursor.strict (init :: cursor.rest) literal value rest :=
      hmisread.delivers hfloats hintegers hrounds
    obtain ⟨numeric, rest, hdelivers, hnone⟩ := hdelivered
    obtain ⟨literal, value, hlexes, -⟩ := h.sound numeric rest hdelivers
    exact hnone literal value hlexes
  · intro h
    constructor
    · intro numeric rest hdelivers
      exact (lexes_or_misread hfloats hintegers hrounds hstart hdelivers).resolve_right h
    · intro literal value rest hlexes
      exact hlexes.delivers hfloats hintegers hrounds

end Conformance

/-! ### Panics -/

/-- A result that is no panic. -/
def NoPanic {α : Type} (result : Except Failure α) : Prop :=
  ∀ message, result ≠ .error (.panic message)

section NoPanic

variable {α β : Type}

/-- A value is no panic. -/
theorem noPanic_ok (a : α) : NoPanic (.ok a) := fun _ h => nomatch h

/-- What is fallible does not panic. -/
theorem noPanic_fallible (x : Except Error α) : NoPanic (fallible x) := by
  intro message h
  cases x <;> cases h

/-- A sequence does not panic if its parts do not. -/
theorem noPanic_bind {x : Except Failure α} {f : α → Except Failure β} (hx : NoPanic x)
    (hf : ∀ a, x = .ok a → NoPanic (f a)) : NoPanic (x >>= f) := by
  cases x with
  | error e => exact fun message h => hx message (congrArg Except.error (Except.error.inj h))
  | ok a => exact hf a rfl

/-- A character that was peeked does not vanish. -/
theorem noPanic_expectNext {message : String} (h : cursor.peekChar = some c) :
    NoPanic (expectNext message cursor) := by
  obtain ⟨t, ht⟩ := Cursor.exists_rest_of_peekChar h
  rw [expectNext_eq message ht]
  exact noPanic_ok _

/-- The prefix of a base does not panic. -/
private theorem noPanic_lexBase {vanished message : String} (h : cursor.peekChar = some c) :
    NoPanic (lexBase base vanished message cursor) := by
  refine noPanic_bind (noPanic_expectNext h) fun _ _ => ?_
  dsimp only
  split
  · exact noPanic_ok _
  · exact noPanic_fallible _

/-- A leading zero does not panic. -/
private theorem noPanic_lexLegacy (h : cursor.peekChar = some c) :
    NoPanic (lexLegacy c startPos cursor) := by
  rw [lexLegacy]
  split
  · split
    · exact noPanic_fallible _
    · refine noPanic_bind (noPanic_expectNext h) fun _ _ => ?_
      refine noPanic_bind (noPanic_fallible _) fun _ _ => ?_
      dsimp only
      split
      · exact noPanic_ok _
      · exact noPanic_ok _
  · split
    · exact noPanic_fallible _
    · exact noPanic_ok _

/-- The beginning of a literal does not panic. -/
theorem noPanic_lexStart : NoPanic (lexStart init startPos cursor) := by
  rw [lexStart]
  split
  · split
    · next h =>
        split_ifs
        · exact noPanic_lexBase h
        · exact noPanic_lexBase h
        · exact noPanic_lexBase h
        · exact noPanic_bind (noPanic_expectNext h) fun _ _ => noPanic_ok _
        · exact noPanic_lexLegacy h
    · exact noPanic_ok _
  · exact noPanic_ok _

/-- An exponent whose indicator was peeked does not panic. -/
private theorem noPanic_lexExponent {vanished : String} (h : cursor.peekChar = some c) :
    NoPanic (lexExponent vanished buf cursor) :=
  noPanic_bind (noPanic_expectNext h) fun _ _ =>
    noPanic_bind (noPanic_fallible _) fun _ _ => noPanic_ok _

/-- A fraction does not panic. -/
private theorem noPanic_lexFraction : NoPanic (lexFraction buf cursor) := by
  rw [lexFraction]
  split
  · exact noPanic_fallible _
  · refine noPanic_bind (noPanic_fallible _) fun _ _ => ?_
    dsimp only
    split
    · next h => exact h.elim noPanic_lexExponent noPanic_lexExponent
    · exact noPanic_ok _

/-- What follows an integer does not panic: it is no rational number that is converted to a
`BigInt`. -/
private theorem noPanic_lexSuffix :
    NoPanic (lexSuffix buf (.integer base) legacyOctal cursor) := by
  rw [lexSuffix]
  split
  · next h =>
      split_ifs
      · exact noPanic_fallible _
      · exact noPanic_bind (noPanic_expectNext h) fun _ _ =>
          noPanic_bind (noPanic_ok _) fun _ _ => noPanic_ok _
      · exact noPanic_bind (noPanic_expectNext h) fun _ _ => noPanic_lexFraction
      · exact noPanic_ok _
      · exact noPanic_lexExponent h
      · exact noPanic_ok _
  · exact noPanic_ok _

/-- The digits of a literal do not panic. -/
theorem noPanic_lexDigits : NoPanic (lexDigits init buf (.integer base) legacyOctal cursor) := by
  rw [lexDigits]
  split
  · exact noPanic_lexFraction
  · exact noPanic_bind (noPanic_fallible _) fun _ _ => noPanic_lexSuffix

/-- The buffer of what is scanned spells a number. -/
theorem Scans.exists_spells
    (hstart : IsDecimalDigit init ∨ init = 0x2E ∧ ∃ c t, cursor.rest = c :: t ∧ IsDecimalDigit c)
    (h : Scans init startPos cursor buf kind rest) (hnext : NextNot IsIdentifierCharacter rest) :
    ∃ value, Spells buf kind value := by
  obtain hinit | ⟨rfl, c, t, hrest, hc⟩ := hstart
  · obtain ⟨-, value, -, hspells⟩ | ⟨-, hspells⟩ := h.sound hinit hnext
    · exact ⟨value, hspells⟩
    · exact hspells
  · obtain ⟨-, value, -, hspells⟩ := h.sound_point hrest hc hnext
    exact ⟨value, hspells⟩

/-- **No panic**: what is peeked does not vanish, and what the buffer spells is read. -/
theorem noPanic_lexNumberLiteral {parseFloat : List Char → Option F64}
    {parseBytes : ℕ → List Char → Option ℤ} {toF64 : ℤ → Option F64}
    (hfloats : ReadsFloats parseFloat) (hintegers : JsBigInt.ReadsIntegers parseBytes)
    (hrounds : RoundsIntegers toF64)
    (hstart : IsDecimalDigit init ∨ init = 0x2E ∧ ∃ c t, cursor.rest = c :: t ∧ IsDecimalDigit c) :
    NoPanic (lexNumberLiteral parseFloat parseBytes toF64 init startPos cursor) := by
  refine noPanic_bind noPanic_lexStart fun ⟨start, middle⟩ hok => ?_
  cases start with
  | finished numeric => exact noPanic_ok _
  | digits front kind legacyOctal =>
      obtain ⟨base, rfl⟩ := (lexStart_iff.mp ⟨middle, hok, rfl⟩).exists_base
      refine noPanic_bind noPanic_lexDigits fun ⟨⟨buf, kind'⟩, last⟩ hdigits => ?_
      refine noPanic_bind (noPanic_fallible _) fun _ hcheck => ?_
      have hscans : Scans init startPos cursor buf kind' last.rest :=
        ⟨front, base, legacyOctal, middle, hok, last, hdigits, rfl⟩
      have hnext := checkAfterNumericLiteral_iff.mp (fallible_eq_ok_iff.mp hcheck)
      obtain ⟨value, hspells⟩ := hscans.exists_spells hstart hnext
      obtain ⟨numeric, hconvert, -⟩ := convert_spec hfloats hintegers hrounds hspells
      refine noPanic_bind ?_ fun _ _ => noPanic_ok _
      rw [hconvert]
      exact noPanic_ok _

end NoPanic

/-! ### Both -/

/-- **Numeric literals.** Behind its first character, a digit or a point in front of one, a literal
is lexed without a panic; and exactly the literals of the grammar are accepted that no character of
an identifier follows, with their values, if and only if the text is not misread. -/
theorem numeric_literals {parseFloat : List Char → Option F64}
    {parseBytes : ℕ → List Char → Option ℤ} {toF64 : ℤ → Option F64}
    (hfloats : ReadsFloats parseFloat) (hintegers : JsBigInt.ReadsIntegers parseBytes)
    (hrounds : RoundsIntegers toF64) (startPos : Position)
    (hstart : IsDecimalDigit init ∨ init = 0x2E ∧ ∃ c t, cursor.rest = c :: t ∧ IsDecimalDigit c) :
    NoPanic (lexNumberLiteral parseFloat parseBytes toF64 init startPos cursor) ∧
      (NumberConforms cursor.strict (init :: cursor.rest)
          (lexNumberLiteral parseFloat parseBytes toF64 init startPos cursor) ↔
        ¬ MisreadNumber cursor.strict (init :: cursor.rest)) :=
  ⟨noPanic_lexNumberLiteral hfloats hintegers hrounds hstart,
    numberConforms_iff hfloats hintegers hrounds hstart⟩

/-- Natural numbers are rounded to doubles. -/
def referenceToF64 (n : ℤ) : Option F64 := some (.double n.toNat)

/-- The nearest double of a natural number. -/
theorem roundsIntegers_referenceToF64 : RoundsIntegers referenceToF64 where
  nearest := fun h => by rw [← Option.some.inj h, Int.toNat_natCast]
  overflow := fun h => by cases h

/-- The text `1_0.5e+1;` is read as specified. -/
theorem numeric_literals_decimal :
    ReadsFloats referenceParse ∧ JsBigInt.ReadsIntegers JsBigInt.parseBytes ∧
      RoundsIntegers referenceToF64 ∧
      NoPanic (lexNumberLiteral referenceParse JsBigInt.parseBytes referenceToF64 0x31 ⟨1, 1⟩
        ⟨[0x5F, 0x30, 0x2E, 0x35, 0x65, 0x2B, 0x31, 0x3B], ⟨1, 2⟩, true⟩) ∧
      NumberConforms true [0x31, 0x5F, 0x30, 0x2E, 0x35, 0x65, 0x2B, 0x31, 0x3B]
        (lexNumberLiteral referenceParse JsBigInt.parseBytes referenceToF64 0x31 ⟨1, 1⟩
          ⟨[0x5F, 0x30, 0x2E, 0x35, 0x65, 0x2B, 0x31, 0x3B], ⟨1, 2⟩, true⟩) := by
  have hfloats := readsFloats_referenceParse
  have hintegers := JsBigInt.readsIntegers_parseBytes
  have hrounds := roundsIntegers_referenceToF64
  obtain ⟨hpanic, hconforms⟩ := @numeric_literals 0x31
    ⟨[0x5F, 0x30, 0x2E, 0x35, 0x65, 0x2B, 0x31, 0x3B], ⟨1, 2⟩, true⟩ _ _ _ hfloats hintegers hrounds
    ⟨1, 1⟩ (.inl (by decide))
  refine ⟨hfloats, hintegers, hrounds, hpanic, hconforms.mpr fun hmisread => ?_⟩
  -- what is misread begins with a zero
  obtain ⟨t, ht⟩ := hmisread.exists_zero
  cases ht

/-- The texts `0b1e5` and `0na` are accepted, and begin with no literal that could end there. -/
theorem not_numberConforms :
    ¬ NumberConforms true [0x30, 0x62, 0x31, 0x65, 0x35]
        (lexNumberLiteral referenceParse JsBigInt.parseBytes referenceToF64 0x30 ⟨1, 1⟩
          ⟨[0x62, 0x31, 0x65, 0x35], ⟨1, 2⟩, true⟩) ∧
      ¬ NumberConforms true [0x30, 0x6E, 0x61]
        (lexNumberLiteral referenceParse JsBigInt.parseBytes referenceToF64 0x30 ⟨1, 1⟩
          ⟨[0x6E, 0x61], ⟨1, 2⟩, true⟩) := by
  have hconforms (rest : List ℕ) := @numberConforms_iff 0x30 ⟨rest, ⟨1, 2⟩, true⟩ ⟨1, 1⟩ _ _ _
    readsFloats_referenceParse JsBigInt.readsIntegers_parseBytes roundsIntegers_referenceToF64
    (.inl (by decide))
  have hbinary : OctalOrBinaryLiteral true [0x30, 0x62, 0x31] [1] :=
    .nonDecimal rfl (by decide) (.mk ⟨by decide, by decide⟩ .nil)
  have hdigits : SeparatedDigits 10 [0x35] [5] := .mk ⟨by decide, by decide⟩ .nil
  have hexponent := @ExponentPart.mk 0x65 _ _ _ _ (.inl rfl) .none hdigits
  constructor
  · rw [hconforms, not_not]
    exact .exponent hbinary hexponent nextNot_nil
  · rw [hconforms, not_not]
    exact .zero (by decide)

end BoaLigero.Lexer
