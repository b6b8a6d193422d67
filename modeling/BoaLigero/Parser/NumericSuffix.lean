import BoaLigero.Builtins.BigInt.FromString
import BoaLigero.Parser.NumberLiteral

/-!
# Suffixes of Numeric Literals

What follows the digits of an integer in the lexer of numbers: nothing, the suffix of a `BigInt`, a
fraction with an exponent, or an exponent; and the number that is read from the buffer in the end.

Where the literal ends, no character of an identifier follows, which the lexer checks behind it.

## Main results

* `lexSuffix_iff` — what is lexed behind the digits of an integer.
* `convert_spec` — the number in the buffer is read with its value, and no conversion panics.
-/

namespace BoaLigero.Lexer

open Digits

variable {radix c d base : ℕ} {s t e digits rest : List ℕ} {buf buf' : List Char}
  {kind kind' : NumericKind} {cursor : Cursor} {legacyOctal : Bool} {q : ℚ} {exponent : ℤ}
  {value : NumericValue}

/-! ### Fractions, exponents and suffixes -/

/-- What is not followed by a character of an identifier is not followed by a digit. -/
theorem nextNot_digitOrSeparator (h : NextNot IsIdentifierCharacter rest) :
    NextNot (IsDigitOrSeparator radix) rest := fun c hc hdigit =>
  h c hc (isIdentifierCharacter_of_isDigit hdigit)

/-- The characters that are pushed for an exponent part. -/
def exponentChars : List ℕ → List Char
  | [] => []
  | _ :: s => 'E' :: chars s

/-- The exponent that is lexed. -/
theorem lexExponent_iff {vanished : String} (hrest : cursor.rest = c :: t)
    (hc : IsExponentIndicator c) (hnext : NextNot IsIdentifierCharacter rest) :
    Delivers (lexExponent vanished buf cursor) (buf', kind') rest ↔
      ∃ e exponent, cursor.rest = e ++ rest ∧ ExponentPart e exponent ∧
        buf' = buf ++ exponentChars e ∧ kind' = .rational := by
  have hcr : c ≠ 0x0D := by
    rintro rfl
    exact absurd hc (by decide)
  have hbind : Delivers (lexExponent vanished buf cursor) (buf', kind') rest ↔
      Delivers (takeSignedInteger (buf ++ ['E']) cursor.advance .rational) buf' rest ∧
        kind' = .rational := by
    simp only [lexExponent, expectNext_eq vanished hrest, delivers_bind, fallible_eq_ok_iff]
    constructor
    · rintro ⟨_, _, hok, b, cursor', htake, h⟩
      cases hok
      obtain ⟨h, hrest'⟩ := delivers_ok.mp h
      obtain ⟨rfl, rfl⟩ := Prod.mk.inj h
      exact ⟨⟨cursor', htake, hrest'⟩, rfl⟩
    · rintro ⟨⟨cursor', htake, hrest'⟩, rfl⟩
      exact ⟨_, _, rfl, _, cursor', htake, delivers_ok.mpr ⟨rfl, hrest'⟩⟩
  rw [hbind, takeSignedInteger_iff, Cursor.rest_advance_of_ne hrest hcr, hrest]
  constructor
  · rintro ⟨⟨sign, negative, s, digits, rfl, hsign, hdigits, -, rfl⟩, rfl⟩
    exact ⟨c :: (sign ++ s), _, by simp, .mk hc hsign hdigits, by simp [exponentChars], rfl⟩
  · rintro ⟨e, exponent, he, hexponent, rfl, rfl⟩
    cases hexponent with
    | mk hindicator hsign hdigits =>
        obtain ⟨rfl, rfl⟩ := List.cons.inj he
        refine ⟨⟨_, _, _, _, List.append_assoc _ _ _, hsign, hdigits,
          nextNot_digitOrSeparator hnext, ?_⟩, rfl⟩
        simp [exponentChars]

/-- Digits that may be left out are a tail that does not begin with a separator. -/
theorem exists_optionalDigits_iff : (∃ digits, OptionalDigits s digits) ↔
    (∃ digits, SeparatedTail 10 s digits) ∧ s.head? ≠ some 0x5F := by
  constructor
  · rintro ⟨_, h⟩
    cases h with
    | none => exact ⟨⟨[], .nil⟩, by simp⟩
    | digits h =>
        cases h with
        | mk hd htail =>
            refine ⟨⟨_, .digit hd htail⟩, ?_⟩
            rw [List.head?_cons, Ne, Option.some.injEq]
            exact hd.lt_ascii.2.1
  · rintro ⟨⟨digits, htail⟩, hhead⟩
    cases htail with
    | nil => exact ⟨_, .none⟩
    | digit hd htail => exact ⟨_, .digits (.mk hd htail)⟩
    | separator _ _ => exact absurd rfl hhead

/-- An exponent part in front of a text begins with its indicator. -/
theorem ExponentPart.exists_indicator {text : List ℕ} (h : ExponentPart e exponent)
    (htext : text = e ++ rest) : ∃ c t, text = c :: t ∧ IsExponentIndicator c := by
  subst htext
  cases h with
  | mk hindicator _ _ => exact ⟨_, _, rfl, hindicator⟩

/-- No digit follows in front of the exponent or the end. -/
theorem OptionalExponent.nextNot_append (h : OptionalExponent e exponent)
    (hnext : NextNot IsIdentifierCharacter rest) : NextNot (IsDigitOrSeparator 10) (e ++ rest) := by
  cases h with
  | none => exact nextNot_digitOrSeparator hnext
  | part h =>
      obtain ⟨c, t, heq, hc⟩ := h.exists_indicator rfl
      rw [heq, nextNot_cons]
      exact hc.not_digit (Nat.le_refl 10)

/-- **The fraction that is lexed**, with its exponent. -/
theorem lexFraction_iff (hnext : NextNot IsIdentifierCharacter rest) :
    Delivers (lexFraction buf cursor) (buf', kind') rest ↔
      ∃ t fraction e exponent, cursor.rest = t ++ (e ++ rest) ∧ OptionalDigits t fraction ∧
        OptionalExponent e exponent ∧ buf' = buf ++ (chars t ++ exponentChars e) ∧
        kind' = .rational := by
  constructor
  · intro h
    rw [lexFraction] at h
    split at h
    · exact absurd h not_delivers_error
    next hhead =>
    simp only [delivers_bind, fallible_eq_ok_iff] at h
    obtain ⟨b, middle, htake, h⟩ := h
    obtain ⟨t, htext, htail, -, hstop, rfl⟩ := takeInteger_iff.mp ⟨middle, htake, rfl⟩
    -- the digits do not begin with a separator
    obtain ⟨fraction, hfraction⟩ : ∃ digits, OptionalDigits t digits := by
      refine exists_optionalDigits_iff.mpr ⟨htail, fun ht => hhead ?_⟩
      obtain ⟨t, rfl⟩ := List.head?_eq_some_iff.mp ht
      exact Cursor.peekChar_of_rest htext
    split at h
    · next hpeek =>
        obtain ⟨c, text, hmiddle, hc⟩ : ∃ c text, middle.rest = c :: text ∧
            IsExponentIndicator c := by
          rcases hpeek with hpeek | hpeek <;>
            obtain ⟨text, hmiddle⟩ := Cursor.exists_rest_of_peekChar hpeek
          · exact ⟨_, text, hmiddle, .inl rfl⟩
          · exact ⟨_, text, hmiddle, .inr rfl⟩
        obtain ⟨e, exponent, he, hexponent, rfl, rfl⟩ := (lexExponent_iff hmiddle hc hnext).mp h
        exact ⟨t, fraction, e, exponent, by rw [htext, he], hfraction, .part hexponent,
          List.append_assoc _ _ _, rfl⟩
    · obtain ⟨h, hrest⟩ := delivers_ok.mp h
      obtain ⟨rfl, rfl⟩ := Prod.mk.inj h
      exact ⟨t, fraction, [], 0, by rw [htext, hrest, List.nil_append], hfraction, .none,
        by simp [exponentChars], rfl⟩
  · rintro ⟨t, fraction, e, exponent, htext, hfraction, hexponent, rfl, rfl⟩
    obtain ⟨htail, hhead⟩ := exists_optionalDigits_iff.mp ⟨fraction, hfraction⟩
    have hstop := hexponent.nextNot_append hnext
    have hpeek : cursor.peekChar ≠ some 0x5F := by
      rw [Cursor.peekChar, htext]
      cases t with
      | nil => exact fun hsome => hstop _ hsome (.inr rfl)
      | cons c t => exact hhead
    have htakes : Delivers (takeInteger buf cursor .rational true) (buf ++ chars t) (e ++ rest) :=
      takeInteger_iff.mpr ⟨t, htext, htail, by simp, hstop, rfl⟩
    obtain ⟨middle, htake, hmiddle⟩ := htakes
    rw [lexFraction, if_neg hpeek]
    simp only [delivers_bind, fallible_eq_ok_iff]
    refine ⟨_, middle, htake, ?_⟩
    cases hexponent with
    | none =>
        have hend : ¬ (middle.peekChar = some 0x65 ∨ middle.peekChar = some 0x45) := by
          rw [List.nil_append] at hmiddle
          rw [Cursor.peekChar, hmiddle]
          rintro (h | h) <;> exact hnext _ h (by decide)
        rw [if_neg hend]
        exact delivers_ok.mpr ⟨by simp [exponentChars], by rw [hmiddle, List.nil_append]⟩
    | part he =>
        obtain ⟨c, text, hcons, hc⟩ := he.exists_indicator hmiddle
        have hind : middle.peekChar = some 0x65 ∨ middle.peekChar = some 0x45 := by
          rw [Cursor.peekChar_of_rest hcons, Option.some.injEq, Option.some.injEq]
          exact hc
        rw [if_pos hind, lexExponent_iff hcons hc hnext]
        exact ⟨e, exponent, hmiddle, he, (List.append_assoc _ _ _).symm, rfl⟩

/-- What an integer in some base may be followed by: nothing, the suffix of a `BigInt`, a fraction
with an exponent, or an exponent; with the characters that are pushed and the kind. -/
inductive IntegerSuffix (base : ℕ) (legacyOctal : Bool) (rest : List ℕ) :
    List ℕ → List Char → NumericKind → Prop
  | none (hpoint : base = 10 → NextNot (· = 0x2E) rest) :
      IntegerSuffix base legacyOctal rest [] [] (.integer base)
  | bigInt (hlegacy : legacyOctal = false) :
      IntegerSuffix base legacyOctal rest [0x6E] [] (.bigInt base)
  | fraction {t fraction e : List ℕ} {exponent : ℤ} (hbase : base = 10)
      (hfraction : OptionalDigits t fraction) (hexponent : OptionalExponent e exponent) :
      IntegerSuffix base legacyOctal rest (0x2E :: (t ++ e))
        ('.' :: (chars t ++ exponentChars e)) .rational
  | exponent {e : List ℕ} {exponent : ℤ} (h : ExponentPart e exponent) :
      IntegerSuffix base legacyOctal rest e (exponentChars e) .rational

/-- The text behind an integer, with its first character. -/
private theorem IntegerSuffix.of_cons {suffix text : List ℕ} {pushed : List Char}
    (h : IntegerSuffix base legacyOctal rest suffix pushed kind)
    (htext : c :: text = suffix ++ rest) :
    rest = c :: text ∧ suffix = [] ∧ pushed = [] ∧ kind = .integer base ∧
        (base = 10 → c ≠ 0x2E) ∨
      c = 0x6E ∧ text = rest ∧ pushed = [] ∧ kind = .bigInt base ∧ legacyOctal = false ∨
      (c = 0x2E ∧ base = 10 ∧ ∃ t fraction e exponent, text = t ++ (e ++ rest) ∧
        OptionalDigits t fraction ∧ OptionalExponent e exponent ∧
        pushed = '.' :: (chars t ++ exponentChars e) ∧ kind = .rational) ∨
      IsExponentIndicator c ∧ ∃ exponent, ExponentPart suffix exponent ∧
        pushed = exponentChars suffix ∧ kind = .rational := by
  cases h with
  | none hpoint =>
      rw [List.nil_append] at htext
      refine .inl ⟨htext.symm, rfl, rfl, rfl, fun hbase => ?_⟩
      exact (nextNot_cons c).mp (htext ▸ hpoint hbase)
  | bigInt hlegacy =>
      obtain ⟨rfl, rfl⟩ := List.cons.inj htext
      exact .inr (.inl ⟨rfl, rfl, rfl, rfl, hlegacy⟩)
  | fraction hbase hfraction hexponent =>
      obtain ⟨rfl, rfl⟩ := List.cons.inj htext
      exact .inr (.inr (.inl ⟨rfl, hbase, _, _, _, _, List.append_assoc _ _ _, hfraction, hexponent,
        rfl, rfl⟩))
  | exponent h =>
      obtain ⟨c', t, heq, hc⟩ := h.exists_indicator htext
      obtain ⟨rfl, -⟩ := List.cons.inj heq
      exact .inr (.inr (.inr ⟨hc, _, h, rfl, rfl⟩))

section Suffix

variable {text : List ℕ} (hnext : NextNot IsIdentifierCharacter rest)

include hnext

/-- Where the literal ends, the next character is none of identifiers. -/
private theorem IntegerSuffix.not_end (hc : IsIdentifierCharacter c) : rest ≠ c :: text := by
  rintro rfl
  exact (nextNot_cons c).mp hnext hc

/-- The suffix of a `BigInt` that is lexed. -/
private theorem lexSuffix_bigInt (htext : cursor.rest = 0x6E :: text) :
    Delivers (lexSuffix buf (.integer base) legacyOctal cursor) (buf', kind') rest ↔
      ∃ suffix pushed, 0x6E :: text = suffix ++ rest ∧ buf' = buf ++ pushed ∧
        IntegerSuffix base legacyOctal rest suffix pushed kind' := by
  have hsuffix : (∃ suffix pushed, 0x6E :: text = suffix ++ rest ∧ buf' = buf ++ pushed ∧
      IntegerSuffix base legacyOctal rest suffix pushed kind') ↔
      legacyOctal = false ∧ buf = buf' ∧ .bigInt base = kind' ∧ text = rest := by
    constructor
    · rintro ⟨suffix, pushed, hsuffix, rfl, h⟩
      obtain ⟨hrest, -⟩ | ⟨-, rfl, rfl, rfl, hlegacy⟩ | ⟨hpoint, -⟩ | ⟨hc, -⟩ := h.of_cons hsuffix
      · exact absurd hrest (IntegerSuffix.not_end hnext (by decide))
      · exact ⟨hlegacy, (List.append_nil _).symm, rfl, rfl⟩
      · cases hpoint
      · exact absurd hc (by decide)
    · rintro ⟨hlegacy, rfl, rfl, rfl⟩
      exact ⟨[0x6E], [], rfl, (List.append_nil _).symm, .bigInt hlegacy⟩
  rw [hsuffix, lexSuffix, Cursor.peekChar_of_rest htext]
  dsimp only
  rw [if_pos rfl]
  cases legacyOctal with
  | true => exact iff_of_false (by simp [fallible, Except.mapError]) (by simp)
  | false =>
      simp only [Bool.false_eq_true, if_false, delivers_bind, expectNext_eq _ htext,
        NumericKind.toBigint, true_and]
      have hadvance := Cursor.rest_advance_of_ne htext (by decide)
      constructor
      · rintro ⟨_, _, hok, h⟩
        cases hok
        obtain ⟨h, hrest⟩ := delivers_ok.mp h
        obtain ⟨rfl, rfl⟩ := Prod.mk.inj h
        exact ⟨rfl, rfl, hadvance ▸ hrest⟩
      · rintro ⟨rfl, rfl, rfl⟩
        exact ⟨_, _, rfl, delivers_ok.mpr ⟨rfl, hadvance⟩⟩

/-- The fraction that is lexed, in base ten. -/
private theorem lexSuffix_point (htext : cursor.rest = 0x2E :: text) :
    Delivers (lexSuffix buf (.integer base) legacyOctal cursor) (buf', kind') rest ↔
      ∃ suffix pushed, 0x2E :: text = suffix ++ rest ∧ buf' = buf ++ pushed ∧
        IntegerSuffix base legacyOctal rest suffix pushed kind' := by
  rw [lexSuffix, Cursor.peekChar_of_rest htext]
  dsimp only
  rw [if_neg (by decide), if_pos rfl]
  by_cases hbase : base = 10
  · have hadvance := Cursor.rest_advance_of_ne htext (by decide)
    rw [if_pos (show (NumericKind.integer base).base = 10 from hbase)]
    simp only [delivers_bind, expectNext_eq _ htext]
    constructor
    · rintro ⟨_, _, hok, h⟩
      cases hok
      obtain ⟨t, fraction, e, exponent, heq, hfraction, hexponent, rfl, rfl⟩ :=
        (lexFraction_iff hnext).mp h
      refine ⟨0x2E :: (t ++ e), _, ?_, ?_, .fraction hbase hfraction hexponent⟩
      · rw [← hadvance, heq, List.cons_append, List.append_assoc]
      · rw [List.append_assoc, List.singleton_append]
    · rintro ⟨suffix, pushed, hsuffix, rfl, h⟩
      refine ⟨_, _, rfl, (lexFraction_iff hnext).mpr ?_⟩
      obtain ⟨-, -, -, -, hpoint⟩ | ⟨hc, -⟩ |
        ⟨-, -, t, fraction, e, exponent, heq, hfraction, hexponent, rfl, rfl⟩ | ⟨hc, -⟩ :=
          h.of_cons hsuffix
      · exact absurd rfl (hpoint hbase)
      · cases hc
      · refine ⟨t, fraction, e, exponent, hadvance.trans heq, hfraction, hexponent, ?_, rfl⟩
        rw [List.append_assoc, List.singleton_append]
      · exact absurd hc (by decide)
  · rw [if_neg (show (NumericKind.integer base).base ≠ 10 from hbase)]
    refine delivers_ok.trans ?_
    rw [htext, Prod.mk.injEq]
    constructor
    · rintro ⟨⟨rfl, rfl⟩, rfl⟩
      exact ⟨[], [], rfl, (List.append_nil _).symm, .none fun h => absurd h hbase⟩
    · rintro ⟨suffix, pushed, hsuffix, rfl, h⟩
      obtain ⟨hrest, -, rfl, rfl, -⟩ | ⟨hc, -⟩ | ⟨-, h, -⟩ | ⟨hc, -⟩ := h.of_cons hsuffix
      · exact ⟨⟨(List.append_nil _).symm, rfl⟩, hrest.symm⟩
      · cases hc
      · exact absurd h hbase
      · exact absurd hc (by decide)

/-- The exponent that is lexed behind an integer, in any base. -/
private theorem lexSuffix_exponent (htext : cursor.rest = c :: text) (hc : IsExponentIndicator c) :
    Delivers (lexSuffix buf (.integer base) legacyOctal cursor) (buf', kind') rest ↔
      ∃ suffix pushed, c :: text = suffix ++ rest ∧ buf' = buf ++ pushed ∧
        IntegerSuffix base legacyOctal rest suffix pushed kind' := by
  have hother : c ≠ 0x6E ∧ c ≠ 0x2E ∧ IsIdentifierCharacter c := by
    rcases hc with rfl | rfl <;> decide
  rw [lexSuffix, Cursor.peekChar_of_rest htext]
  dsimp only
  rw [if_neg hother.1, if_neg hother.2.1, if_pos (show c = 0x65 ∨ c = 0x45 from hc),
    lexExponent_iff htext hc hnext, htext]
  constructor
  · rintro ⟨e, exponent, heq, h, rfl, rfl⟩
    exact ⟨e, _, heq, rfl, .exponent h⟩
  · rintro ⟨suffix, pushed, hsuffix, rfl, h⟩
    obtain ⟨hrest, -⟩ | ⟨h, -⟩ | ⟨h, -⟩ | ⟨-, exponent, he, rfl, rfl⟩ := h.of_cons hsuffix
    · exact absurd hrest (IntegerSuffix.not_end hnext hother.2.2)
    · exact absurd h hother.1
    · exact absurd h hother.2.1
    · exact ⟨suffix, exponent, hsuffix, he, rfl, rfl⟩

end Suffix

/-- **What is lexed behind an integer.** -/
theorem lexSuffix_iff (hnext : NextNot IsIdentifierCharacter rest) :
    Delivers (lexSuffix buf (.integer base) legacyOctal cursor) (buf', kind') rest ↔
      ∃ suffix pushed, cursor.rest = suffix ++ rest ∧ buf' = buf ++ pushed ∧
        IntegerSuffix base legacyOctal rest suffix pushed kind' := by
  have hended : Delivers (.ok ((buf, .integer base), cursor) : Except Failure _) (buf', kind')
      rest ↔ (buf = buf' ∧ .integer base = kind') ∧ cursor.rest = rest := by
    rw [delivers_ok, Prod.mk.injEq]
  cases htext : cursor.rest with
  | nil =>
      have hpeek : cursor.peekChar = none := by rw [Cursor.peekChar, htext, List.head?_nil]
      rw [lexSuffix, hpeek]
      refine hended.trans ?_
      rw [htext]
      constructor
      · rintro ⟨⟨rfl, rfl⟩, rfl⟩
        exact ⟨[], [], rfl, (List.append_nil _).symm, .none fun _ => nextNot_nil⟩
      · rintro ⟨suffix, pushed, hsuffix, rfl, h⟩
        obtain ⟨rfl, rfl⟩ := List.nil_eq_append_iff.mp hsuffix
        generalize hnil : ([] : List ℕ) = text at h
        cases h with
        | none _ => exact ⟨⟨(List.append_nil _).symm, rfl⟩, rfl⟩
        | bigInt _ | fraction _ _ _ => cases hnil
        | exponent h =>
            subst hnil
            cases h
  | cons c text =>
      by_cases hn : c = 0x6E
      · subst hn
        exact lexSuffix_bigInt hnext htext
      by_cases hpoint : c = 0x2E
      · subst hpoint
        exact lexSuffix_point hnext htext
      by_cases hc : IsExponentIndicator c
      · exact lexSuffix_exponent hnext htext hc
      rw [lexSuffix, Cursor.peekChar_of_rest htext]
      dsimp only
      rw [if_neg hn, if_neg hpoint, if_neg (show ¬ (c = 0x65 ∨ c = 0x45) from hc)]
      refine hended.trans ?_
      rw [htext]
      constructor
      · rintro ⟨⟨rfl, rfl⟩, rfl⟩
        exact ⟨[], [], rfl, (List.append_nil _).symm, .none fun _ => (nextNot_cons c).mpr hpoint⟩
      · rintro ⟨suffix, pushed, hsuffix, rfl, h⟩
        obtain ⟨hrest, -, rfl, rfl, -⟩ | ⟨h, -⟩ | ⟨h, -⟩ | ⟨h, -⟩ := h.of_cons hsuffix
        · exact ⟨⟨(List.append_nil _).symm, rfl⟩, hrest.symm⟩
        · exact absurd h hn
        · exact absurd h hpoint
        · exact absurd h hc

/-! ### The number in the buffer -/

/-- A token denotes the mathematical value of a literal: a Number is the nearest double. -/
def Numeric.Denotes : Numeric → NumericValue → Prop
  | .integer n, .number q => F64.ofInt32 n = F64.ofValue q false
  | .rational x, .number q => x = F64.ofValue q false
  | .bigInt n, .bigInt m => n = m
  | _, _ => False

/-- The characters of the buffer as a number of a kind. -/
inductive Spells : List Char → NumericKind → NumericValue → Prop
  | rational {s : List Char} {q : ℚ} (h : UnsignedDecimal s q) : Spells s .rational (.number q)
  | integer {base : ℕ} {s : List Char} {digits : List ℕ} (hne : s ≠ [])
      (h : IsDigits base s digits) : Spells s (.integer base) (.number (ofDigits base digits))
  | bigInt {base : ℕ} {s : List Char} {digits : List ℕ} (hne : s ≠ [])
      (h : IsDigits base s digits) : Spells s (.bigInt base) (.bigInt (ofDigits base digits))

/-- `BigInt::to_f64`: the nearest double; what is too large is an infinity, or gives nothing. -/
structure RoundsIntegers (toF64 : ℤ → Option F64) : Prop where
  nearest : ∀ {n : ℕ} {x}, toF64 n = some x → x = F64.double n
  overflow : ∀ {n : ℕ}, toF64 n = none → F64.double n = F64.infinity false

section Spelling

variable {parseFloat : List Char → Option F64} {parseBytes : ℕ → List Char → Option ℤ}
  {toF64 : ℤ → Option F64} {string : List Char}

/-- The double of a value that is not negative is not negative. -/
private theorem isNegative_ofValue (hq : 0 ≤ q) : (F64.ofValue q false).isNegative = false := by
  have hzero : ∀ negative : Bool, (F64.infinity negative).isNegative = negative := by decide
  rw [F64.ofValue]
  split
  · decide
  · rw [F64.round]
    split
    · next hbits =>
        rw [F64.isNegative_ofFields (by omega) (Nat.mod_lt _ (by positivity))]
        exact decide_eq_false hq.not_gt
    · rw [hzero]
      exact decide_eq_false hq.not_gt

/-- A decimal literal is read by the library with its value, correctly rounded. -/
theorem parse_of_unsignedDecimal (hfloats : ReadsFloats parseFloat) (h : UnsignedDecimal string q) :
    parseFloat string = some (F64.ofValue q false) := by
  have hread := hfloats string
  cases hvalue : parseFloat string with
  | none =>
      rw [hvalue] at hread
      exact absurd (.number .none h) (hread _)
  | some v =>
      rw [hvalue] at hread
      cases hread with
      | number hsign hdecimal =>
          cases hsign with
          | none => rw [h.unique hdecimal, signedDouble, if_neg Bool.false_ne_true]
          | plus => exact absurd rfl h.ne_sign.1
          | minus => exact absurd rfl h.ne_sign.2
      | @infinity sign _ _ _ hword =>
          exact (not_unsignedDecimal_of_word (mem_n_of_word hword) .none h
            fun c hc => List.mem_append_right [] (List.mem_append_right sign hc)).elim
      | @nan sign _ word _ _ hword _ =>
          have hn : 'n' ∈ word.map Char.toLower := hword ▸ by decide
          exact (not_unsignedDecimal_of_word hn .none h
            fun c hc => List.mem_append_right [] (List.mem_append_right sign hc)).elim

/-- A decimal literal without a sign is not negative. -/
theorem nonneg_of_unsignedDecimal (h : UnsignedDecimal string q) : 0 ≤ q := by
  cases h with
  | mk hmantissa _ =>
      refine mul_nonneg ?_ (zpow_nonneg (by norm_num) _)
      cases hmantissa with
      | integer _ _ => exact Nat.cast_nonneg _
      | point _ _ _ => exact div_nonneg (Nat.cast_nonneg _) (pow_nonneg (by norm_num) _)

/-- The digits of a machine integer are read where the number fits. -/
theorem i32FromStrRadix_of_isDigits (hne : string ≠ []) (h : IsDigits base string digits) :
    i32FromStrRadix string base =
      if ofDigits base digits < 2 ^ 31 then some (.ofInt (ofDigits base digits)) else none := by
  have hhead (c : Char) (hc : c = '+' ∨ c = '-') : string.head? ≠ some c := by
    rintro hhead
    obtain ⟨t, rfl⟩ := List.head?_eq_some_iff.mp hhead
    exact hc.elim h.ne_sign_of_cons.1 h.ne_sign_of_cons.2
  have hplus := hhead '+' (.inl rfl)
  have hminus := hhead '-' (.inr rfl)
  have hmap : string.mapM (toDigit base) = some digits := mapM_eq_some_iff.mpr h
  rw [i32FromStrRadix]
  dsimp only
  rw [if_neg (not_or.mpr ⟨hminus, hplus⟩), if_neg hne, hmap, Option.bind_some, if_neg hminus]
  exact if_congr (by omega) rfl rfl

/-- The double of a natural number that fits is that of the machine integer. -/
theorem ofInt32_ofInt {n : ℕ} (h : n < 2 ^ 31) : F64.ofInt32 (.ofInt n) = F64.ofValue n false := by
  have hvalue : (Int32.ofInt n).toInt = n := Int32.toInt_ofInt_of_le (by omega) (by omega)
  rw [← F64.ofValue_intCast (fun _ => rfl), hvalue, Int.cast_natCast]

/-- A double that is equal to a machine integer is that integer, if it is not negative. -/
theorem ofInt32_eq_of_beq {n : Int32} (hq : 0 ≤ q)
    (h : (F64.ofInt32 n).beq (F64.ofValue q false) = true) :
    F64.ofInt32 n = F64.ofValue q false := by
  have hunits := F64.units_of_beq h
  have hsign := isNegative_ofValue hq
  refine F64.eq_of_units hunits ?_
  rw [hsign, F64.isNegative_ofInt32, decide_eq_false_iff_not, not_lt]
  have hnonneg : 0 ≤ (F64.ofValue q false).units := by
    rw [F64.units, hsign, if_neg Bool.false_ne_true]
    exact Int.natCast_nonneg _
  rw [← hunits, F64.units_ofInt32] at hnonneg
  exact nonneg_of_mul_nonneg_left hnonneg (by positivity)

/-- **The number in the buffer** is read with its value, and no conversion panics. -/
theorem convert_spec (hfloats : ReadsFloats parseFloat)
    (hintegers : JsBigInt.ReadsIntegers parseBytes) (hrounds : RoundsIntegers toF64)
    (h : Spells string kind value) :
    ∃ numeric, convert parseFloat parseBytes toF64 string kind = .ok numeric ∧
      numeric.Denotes value := by
  have hparse {base : ℕ} {digits : List ℕ} (hne : string ≠ []) (h : IsDigits base string digits) :
      parseBytes base string = some (ofDigits base digits : ℤ) :=
    hintegers.separated .none (.digits hne h)
  cases h with
  | @rational _ q h =>
      have hread := parse_of_unsignedDecimal hfloats h
      simp only [convert, hread]
      split
      · next heq => exact ⟨_, rfl, ofInt32_eq_of_beq (nonneg_of_unsignedDecimal h) heq⟩
      · exact ⟨_, rfl, rfl⟩
  | integer hne h =>
      simp only [convert, i32FromStrRadix_of_isDigits hne h]
      split_ifs with hlt
      · exact ⟨_, rfl, ofInt32_ofInt hlt⟩
      · simp only [hparse hne h]
        refine ⟨_, rfl, ?_⟩
        cases hround : toF64 (ofDigits _ _) with
        | some x => exact hrounds.nearest hround
        | none => exact (hrounds.overflow hround).symm
  | bigInt hne h =>
      simp only [convert, hparse hne h]
      exact ⟨_, rfl, rfl⟩

end Spelling

end BoaLigero.Lexer
