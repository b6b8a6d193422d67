import BoaLigero.String.FromStrRadix

/-!
# The Grammar of Literals with Escapes

String literals and the characters of templates as the language specification has them, over the
code points of a source text: every production relates the text in front of it to the text behind
it and to its value.

The hexadecimal digits of an escape may have a plus sign in front of them where the flag of the
production is set. The specification has no such escapes.

## Main results

* `IsSharedEscape`, `IsLegacyEscape`, `IsNotEscape` — the escape sequences.
* `IsSharedEscape.exclusive` — no text starts both with an escape sequence and with what is none.
* `exists_escape` — every text starts with one of them, or with a line terminator.
-/

namespace BoaLigero.Lexer

open Digits

/-! ### Characters -/

/-- A digit, and its value. -/
def IsDigit (radix c d : ℕ) : Prop :=
  d < radix ∧ (0x30 ≤ c ∧ c ≤ 0x39 ∧ d = c - 0x30 ∨ 0x61 ≤ c ∧ c ≤ 0x7A ∧ d = c - 0x61 + 10 ∨
    0x41 ≤ c ∧ c ≤ 0x5A ∧ d = c - 0x41 + 10)

/-- Digits, and their values. -/
def AreDigits (radix : ℕ) (s digits : List ℕ) : Prop := List.Forall₂ (IsDigit radix) s digits

/-- The next character, if there is one, is none of these. -/
def NextNot (p : ℕ → Prop) (rest : List ℕ) : Prop := ∀ c ∈ rest.head?, ¬ p c

/-- `DecimalDigit`. -/
def IsDecimalDigit (c : ℕ) : Prop := 0x30 ≤ c ∧ c ≤ 0x39

/-- `OctalDigit`. -/
def IsOctalDigit (c : ℕ) : Prop := 0x30 ≤ c ∧ c ≤ 0x37

/-- `HexDigit`. -/
def IsHexDigit (c : ℕ) : Prop :=
  0x30 ≤ c ∧ c ≤ 0x39 ∨ 0x61 ≤ c ∧ c ≤ 0x66 ∨ 0x41 ≤ c ∧ c ≤ 0x46

/-- `LineTerminator`. -/
def IsLineTerminator (c : ℕ) : Prop := c = 0x0A ∨ c = 0x0D ∨ c = 0x2028 ∨ c = 0x2029

/-- A decimal digit is told by its code point. -/
instance (c : ℕ) : Decidable (IsDecimalDigit c) := inferInstanceAs (Decidable (_ ∧ _))

/-- An octal digit is told by its code point. -/
instance (c : ℕ) : Decidable (IsOctalDigit c) := inferInstanceAs (Decidable (_ ∧ _))

/-- A hexadecimal digit is told by its code point. -/
instance (c : ℕ) : Decidable (IsHexDigit c) := inferInstanceAs (Decidable (_ ∨ _))

/-- A line terminator is told by its code point. -/
instance (c : ℕ) : Decidable (IsLineTerminator c) := inferInstanceAs (Decidable (_ ∨ _))

/-- `UTF16EncodeCodePoint`. -/
def utf16EncodeCodePoint (cp : ℕ) : List UInt16 :=
  if cp ≤ 0xFFFF then [.ofNat cp]
  else [.ofNat ((cp - 0x10000) / 0x400 + 0xD800), .ofNat ((cp - 0x10000) % 0x400 + 0xDC00)]

/-! ### Escape sequences -/

/-- The characters of single escapes, with the code units that they stand for. -/
def singleEscapes : List (ℕ × ℕ) :=
  [(0x62, 0x08), (0x74, 0x09), (0x6E, 0x0A), (0x76, 0x0B), (0x66, 0x0C), (0x72, 0x0D), (0x22, 0x22),
    (0x27, 0x27), (0x5C, 0x5C)]

/-- `NonEscapeCharacter`. -/
def IsNonEscapeCharacter (c : ℕ) : Prop :=
  (∀ v, (c, v) ∉ singleEscapes) ∧ ¬ IsDecimalDigit c ∧ c ≠ 0x78 ∧ c ≠ 0x75 ∧ ¬ IsLineTerminator c

/-- Hexadecimal digits and their number, behind a plus sign or not. -/
inductive IsHexNumeral : Bool → List ℕ → ℕ → Prop
  | digits {s digits} (hne : s ≠ []) (hdigits : AreDigits 16 s digits) :
      IsHexNumeral false s (ofDigits 16 digits)
  | plus {s digits} (hne : s ≠ []) (hdigits : AreDigits 16 s digits) :
      IsHexNumeral true (0x2B :: s) (ofDigits 16 digits)

/-- The escape sequences that strings and templates share: `CharacterEscapeSequence`, `0`,
`HexEscapeSequence` and `UnicodeEscapeSequence`. -/
inductive IsSharedEscape : Bool → List ℕ → List ℕ → ℕ → Prop
  | single {c v rest} (h : (c, v) ∈ singleEscapes) : IsSharedEscape false (c :: rest) rest v
  | nonEscape {c rest} (h : IsNonEscapeCharacter c) : IsSharedEscape false (c :: rest) rest c
  | nul {rest} (hnext : NextNot IsDecimalDigit rest) : IsSharedEscape false (0x30 :: rest) rest 0
  | hex {signed s v rest} (h : IsHexNumeral signed s v) (hlen : s.length = 2) :
      IsSharedEscape signed (0x78 :: (s ++ rest)) rest v
  | hex4 {signed s v rest} (h : IsHexNumeral signed s v) (hlen : s.length = 4) :
      IsSharedEscape signed (0x75 :: (s ++ rest)) rest v
  | codePoint {signed s v rest} (h : IsHexNumeral signed s v) (hle : v ≤ 0x10FFFF) :
      IsSharedEscape signed (0x75 :: 0x7B :: (s ++ 0x7D :: rest)) rest v

/-- The escape sequences of strings in sloppy mode: `LegacyOctalEscapeSequence` and
`NonOctalDecimalEscapeSequence`. -/
inductive IsLegacyEscape : List ℕ → List ℕ → ℕ → Prop
  | nul {c rest} (hnext : c = 0x38 ∨ c = 0x39) : IsLegacyEscape (0x30 :: c :: rest) (c :: rest) 0
  | nonZero {c d rest} (hc : IsDigit 8 c d) (hd : d ≠ 0) (hnext : NextNot IsOctalDigit rest) :
      IsLegacyEscape (c :: rest) rest d
  | zeroToThree {c c' d d' rest} (hc : IsDigit 8 c d) (hd : d ≤ 3) (hc' : IsDigit 8 c' d')
      (hnext : NextNot IsOctalDigit rest) : IsLegacyEscape (c :: c' :: rest) rest (d * 8 + d')
  | fourToSeven {c c' d d' rest} (hc : IsDigit 8 c d) (hd : 4 ≤ d) (hc' : IsDigit 8 c' d') :
      IsLegacyEscape (c :: c' :: rest) rest (d * 8 + d')
  | three {c c' c'' d d' d'' rest} (hc : IsDigit 8 c d) (hd : d ≤ 3) (hc' : IsDigit 8 c' d')
      (hc'' : IsDigit 8 c'' d'') :
      IsLegacyEscape (c :: c' :: c'' :: rest) rest ((d * 8 + d') * 8 + d'')
  | nonOctalDecimal {c rest} (hc : c = 0x38 ∨ c = 0x39) : IsLegacyEscape (c :: rest) rest c

/-- `LineTerminatorSequence`, with its value in templates. -/
inductive IsLineTerminatorSequence : List ℕ → List ℕ → UInt16 → Prop
  | lf {rest} : IsLineTerminatorSequence (0x0A :: rest) rest 0x0A
  | cr {rest} (hnext : NextNot (· = 0x0A) rest) : IsLineTerminatorSequence (0x0D :: rest) rest 0x0A
  | ls {rest} : IsLineTerminatorSequence (0x2028 :: rest) rest 0x2028
  | ps {rest} : IsLineTerminatorSequence (0x2029 :: rest) rest 0x2029
  | crLf {rest} : IsLineTerminatorSequence (0x0D :: 0x0A :: rest) rest 0x0A

/-- `NotEscapeSequence`. -/
inductive IsNotEscape : List ℕ → List ℕ → Prop
  | zero {c rest} (hc : IsDecimalDigit c) : IsNotEscape (0x30 :: c :: rest) rest
  | digit {c rest} (hc : IsDecimalDigit c) (hne : c ≠ 0x30) : IsNotEscape (c :: rest) rest
  | hex {s rest} (hs : ∀ c ∈ s, IsHexDigit c) (hlen : s.length < 2)
      (hnext : NextNot IsHexDigit rest) : IsNotEscape (0x78 :: (s ++ rest)) rest
  | hex4 {s rest} (hs : ∀ c ∈ s, IsHexDigit c) (hlen : s.length < 4)
      (hnext : NextNot IsHexDigit rest) (hbrace : s = [] → NextNot (· = 0x7B) rest) :
      IsNotEscape (0x75 :: (s ++ rest)) rest
  | noCodePoint {rest} (hnext : NextNot IsHexDigit rest) : IsNotEscape (0x75 :: 0x7B :: rest) rest
  | notCodePoint {s v rest} (h : IsHexNumeral false s v) (hgt : 0x10FFFF < v)
      (hnext : NextNot IsHexDigit rest) : IsNotEscape (0x75 :: 0x7B :: (s ++ rest)) rest
  | codePoint {s v rest} (h : IsHexNumeral false s v) (hle : v ≤ 0x10FFFF)
      (hnext : NextNot IsHexDigit rest) (hbrace : NextNot (· = 0x7D) rest) :
      IsNotEscape (0x75 :: 0x7B :: (s ++ rest)) rest

/-! ### Literals -/

/-- The characters of a string literal up to its end (`DoubleStringCharacters`,
`SingleStringCharacters`), and their string value. -/
inductive StringCharacters (strict : Bool) (quote : ℕ) :
    Bool → List ℕ → List ℕ → List UInt16 → Prop
  | nil {rest} : StringCharacters strict quote false rest rest []
  | char {signed c input rest value} (hquote : c ≠ quote) (hbackslash : c ≠ 0x5C)
      (hline : IsLineTerminator c → c = 0x2028 ∨ c = 0x2029)
      (htail : StringCharacters strict quote signed input rest value) :
      StringCharacters strict quote signed (c :: input) rest (utf16EncodeCodePoint c ++ value)
  | escape {signed signed' input middle rest v value}
      (hescape : IsSharedEscape signed input middle v)
      (htail : StringCharacters strict quote signed' middle rest value) :
      StringCharacters strict quote (signed || signed') (0x5C :: input) rest
        (utf16EncodeCodePoint v ++ value)
  | legacyEscape {signed input middle rest v value} (hstrict : strict = false)
      (hescape : IsLegacyEscape input middle v)
      (htail : StringCharacters strict quote signed middle rest value) :
      StringCharacters strict quote signed (0x5C :: input) rest (utf16EncodeCodePoint v ++ value)
  | lineContinuation {signed input middle rest unit value}
      (hline : IsLineTerminatorSequence input middle unit)
      (htail : StringCharacters strict quote signed middle rest value) :
      StringCharacters strict quote signed (0x5C :: input) rest value

/-- A string literal behind its opening quote. -/
def IsStringLiteral (strict : Bool) (quote : ℕ) (signed : Bool) (input rest : List ℕ)
    (value : List UInt16) : Prop := StringCharacters strict quote signed input (quote :: rest) value

/-- The code units of a text. -/
def codeUnits (text : List ℕ) : List UInt16 := text.flatMap utf16EncodeCodePoint

/-- `TemplateCharacters`, with their raw value (TRV) and their value (TV), which is missing where
one of them is no escape sequence. -/
inductive TemplateCharacters : Bool → List ℕ → List ℕ → List UInt16 → Option (List UInt16) → Prop
  | nil {rest} : TemplateCharacters false rest rest [] (some [])
  | dollar {signed input rest raw value} (hnext : NextNot (· = 0x7B) input)
      (htail : TemplateCharacters signed input rest raw value) :
      TemplateCharacters signed (0x24 :: input) rest (0x24 :: raw) (value.map (0x24 :: ·))
  | char {signed c input rest raw value} (hc : c ≠ 0x60 ∧ c ≠ 0x5C ∧ c ≠ 0x24)
      (hline : ¬ IsLineTerminator c) (htail : TemplateCharacters signed input rest raw value) :
      TemplateCharacters signed (c :: input) rest (utf16EncodeCodePoint c ++ raw)
        (value.map (utf16EncodeCodePoint c ++ ·))
  | lineTerminator {signed input middle rest unit raw value}
      (hline : IsLineTerminatorSequence input middle unit)
      (htail : TemplateCharacters signed middle rest raw value) :
      TemplateCharacters signed input rest (unit :: raw) (value.map (unit :: ·))
  | lineContinuation {signed input middle rest unit raw value}
      (hline : IsLineTerminatorSequence input middle unit)
      (htail : TemplateCharacters signed middle rest raw value) :
      TemplateCharacters signed (0x5C :: input) rest (0x5C :: unit :: raw) value
  | escape {signed signed' text middle rest v raw value}
      (hescape : IsSharedEscape signed (text ++ middle) middle v)
      (htail : TemplateCharacters signed' middle rest raw value) :
      TemplateCharacters (signed || signed') (0x5C :: (text ++ middle)) rest
        (0x5C :: (codeUnits text ++ raw)) (value.map (utf16EncodeCodePoint v ++ ·))
  | notEscape {signed text middle rest raw value} (hescape : IsNotEscape (text ++ middle) middle)
      (htail : TemplateCharacters signed middle rest raw value) :
      TemplateCharacters signed (0x5C :: (text ++ middle)) rest
        (0x5C :: (codeUnits text ++ raw)) none

/-! ### Digits -/

variable {radix : ℕ} {c d : ℕ} {s s' digits digits' rest rest' input : List ℕ} {p : ℕ → Prop}

/-- At the end nothing comes next. -/
theorem nextNot_nil : NextNot p [] := fun _ h => nomatch h

/-- What comes next is the first code point. -/
theorem nextNot_cons (c : ℕ) : NextNot p (c :: rest) ↔ ¬ p c := by
  simp [NextNot]

/-- The digits of a base up to ten, and their values. -/
theorem isDigit_iff_of_le (hradix : radix ≤ 10) :
    IsDigit radix c d ↔ 0x30 ≤ c ∧ c < 0x30 + radix ∧ d = c - 0x30 := by
  constructor
  · rintro ⟨hlt, h | h | h⟩
    · omega
    · omega
    · omega
  · rintro ⟨hge, hlt, rfl⟩
    exact ⟨by omega, .inl ⟨hge, by omega, rfl⟩⟩

/-- A hexadecimal digit is one that has a value below sixteen. -/
theorem isHexDigit_iff : IsHexDigit c ↔ ∃ d, IsDigit 16 c d := by
  constructor
  · rintro (h | h | h)
    · exact ⟨c - 0x30, by omega, .inl ⟨h.1, h.2, rfl⟩⟩
    · exact ⟨c - 0x61 + 10, by omega, .inr (.inl ⟨h.1, by omega, rfl⟩)⟩
    · exact ⟨c - 0x41 + 10, by omega, .inr (.inr ⟨h.1, by omega, rfl⟩)⟩
  · rintro ⟨d, hlt, h | h | h⟩
    · exact .inl ⟨h.1, h.2.1⟩
    · exact .inr (.inl ⟨h.1, by omega⟩)
    · exact .inr (.inr ⟨h.1, by omega⟩)

/-- An octal digit is one that has a value below eight. -/
theorem isOctalDigit_iff : IsOctalDigit c ↔ ∃ d, IsDigit 8 c d := by
  simp only [isDigit_iff_of_le (show 8 ≤ 10 by decide), exists_and_left, exists_eq, and_true]
  rw [IsOctalDigit, Nat.lt_succ_iff]

/-- The decimal digits are the digits of base ten. -/
theorem isDecimalDigit_iff : IsDecimalDigit c ↔ ∃ d, IsDigit 10 c d := by
  simp only [isDigit_iff_of_le (Nat.le_refl 10), exists_and_left, exists_eq, and_true]
  rw [IsDecimalDigit, Nat.lt_succ_iff]

/-- A digit has one value. -/
theorem IsDigit.unique {d' : ℕ} (h : IsDigit radix c d) (h' : IsDigit radix c d') : d = d' := by
  rw [IsDigit] at h h'
  omega

/-- Digits have one list of values. -/
theorem AreDigits.unique (h : AreDigits radix s digits) (h' : AreDigits radix s digits') :
    digits = digits' := by
  induction h generalizing digits' with
  | nil =>
      cases h'
      rfl
  | cons hd _ ih =>
      cases h' with
      | cons hd' htail => rw [hd.unique hd', ih htail]

/-- Code points are hexadecimal digits exactly if they have a list of values. -/
theorem areHexDigits_iff : (∀ c ∈ s, IsHexDigit c) ↔ ∃ digits, AreDigits 16 s digits := by
  constructor
  · intro h
    induction s with
    | nil => exact ⟨[], .nil⟩
    | cons c s ih =>
        obtain ⟨digits, hdigits⟩ := ih fun c' hc' => h c' (List.mem_cons_of_mem _ hc')
        obtain ⟨d, hd⟩ := isHexDigit_iff.mp (h c List.mem_cons_self)
        exact ⟨d :: digits, .cons hd hdigits⟩
  · rintro ⟨digits, h⟩
    induction h with
    | nil => exact fun c hc => absurd hc List.not_mem_nil
    | cons hd _ ih =>
        intro c hc
        cases List.mem_cons.mp hc with
        | inl heq => exact heq ▸ isHexDigit_iff.mpr ⟨_, hd⟩
        | inr hmem => exact ih c hmem

/-- A numeral without a sign is at least one digit, with the value of the digits. -/
theorem isHexNumeral_false_iff {v : ℕ} :
    IsHexNumeral false s v ↔ s ≠ [] ∧ ∃ digits, AreDigits 16 s digits ∧ ofDigits 16 digits = v := by
  constructor
  · rintro ⟨hne, hdigits⟩
    exact ⟨hne, _, hdigits, rfl⟩
  · rintro ⟨hne, digits, hdigits, rfl⟩
    exact .digits hne hdigits

/-- A numeral is not empty. -/
theorem IsHexNumeral.ne_nil {signed : Bool} {v : ℕ} (h : IsHexNumeral signed s v) : s ≠ [] := by
  cases h with
  | digits hne _ => exact hne
  | plus _ _ => exact List.cons_ne_nil _ _

/-- A numeral without a sign consists of digits. -/
theorem IsHexNumeral.isHexDigit {v : ℕ} (h : IsHexNumeral false s v) : ∀ c ∈ s, IsHexDigit c := by
  obtain ⟨-, digits, hdigits, -⟩ := isHexNumeral_false_iff.mp h
  exact areHexDigits_iff.mpr ⟨digits, hdigits⟩

/-- Hexadecimal digits, at least one, are a numeral. -/
theorem exists_isHexNumeral (hne : s ≠ []) (h : ∀ c ∈ s, IsHexDigit c) :
    ∃ v, IsHexNumeral false s v := by
  obtain ⟨digits, hdigits⟩ := areHexDigits_iff.mp h
  exact ⟨_, .digits hne hdigits⟩

/-- Characters of a kind end no later than where the next one is not of that kind. -/
theorem length_le_of_nextNot (hs : ∀ c ∈ s, p c) (hnext : NextNot p rest')
    (h : s ++ rest = s' ++ rest') : s.length ≤ s'.length := by
  induction s generalizing s' with
  | nil => exact Nat.zero_le _
  | cons c s ih =>
      cases s' with
      | nil =>
          rw [List.nil_append] at h
          rw [← h, List.cons_append, nextNot_cons] at hnext
          exact absurd (hs c List.mem_cons_self) hnext
      | cons c' s' =>
          rw [List.cons_append, List.cons_append, List.cons.injEq] at h
          exact Nat.succ_le_succ (ih (fun d hd => hs d (List.mem_cons_of_mem _ hd)) h.2)

/-- All characters of a kind are told apart from what follows them. -/
theorem run_unique (hs : ∀ c ∈ s, p c) (hs' : ∀ c ∈ s', p c) (hnext : NextNot p rest)
    (hnext' : NextNot p rest') (h : s ++ rest = s' ++ rest') : s = s' ∧ rest = rest' :=
  List.append_inj h (Nat.le_antisymm (length_le_of_nextNot hs hnext' h)
    (length_le_of_nextNot hs' hnext h.symm))

/-- An input begins with a longest run of code points of one kind. -/
theorem exists_run [DecidablePred p] (input : List ℕ) :
    ∃ s rest, input = s ++ rest ∧ (∀ c ∈ s, p c) ∧ NextNot p rest := by
  induction input with
  | nil => exact ⟨[], [], rfl, fun c hc => absurd hc List.not_mem_nil, nextNot_nil⟩
  | cons c input ih =>
      by_cases hc : p c
      · obtain ⟨s, rest, rfl, hs, hnext⟩ := ih
        exact ⟨c :: s, rest, rfl, by simpa [hc] using hs, hnext⟩
      · exact ⟨[], c :: input, rfl, fun c hc => absurd hc List.not_mem_nil,
          (nextNot_cons c).mpr hc⟩

/-! ### Escape sequences and what is none -/

variable {signed : Bool} {v : ℕ} {middle middle' : List ℕ}

/-- An escape sequence takes something from the input. -/
theorem IsSharedEscape.length_lt (h : IsSharedEscape signed input middle v) :
    middle.length < input.length := by
  cases h with
  | single _ | nonEscape _ | nul _ => exact Nat.lt_succ_self _
  | hex _ _ | hex4 _ _ | codePoint _ _ =>
      simp only [List.length_cons, List.length_append]
      omega

/-- The first character of what is no escape sequence. -/
theorem IsNotEscape.first (h : IsNotEscape (c :: input) middle) :
    IsDecimalDigit c ∨ c = 0x78 ∨ c = 0x75 := by
  generalize htext : c :: input = text at h
  cases h with
  | zero _ =>
      cases htext
      exact .inl (by decide)
  | digit hc _ =>
      cases htext
      exact .inl hc
  | hex _ _ _ =>
      cases htext
      exact .inr (.inl rfl)
  | hex4 _ _ _ _ | noCodePoint _ | notCodePoint _ _ _ | codePoint _ _ _ _ =>
      cases htext
      exact .inr (.inr rfl)

/-- A character that is escaped by itself is no digit, and neither `x` nor `u`. -/
theorem singleEscape_not_first (h : (c, v) ∈ singleEscapes) :
    ¬ (IsDecimalDigit c ∨ c = 0x78 ∨ c = 0x75) := by
  have hall : ∀ e ∈ singleEscapes, ¬ (IsDecimalDigit e.1 ∨ e.1 = 0x78 ∨ e.1 = 0x75) := by decide
  exact hall _ h

/-- An escape sequence does not start with a line terminator. -/
theorem IsSharedEscape.first (h : IsSharedEscape signed (c :: input) middle v) :
    ¬ IsLineTerminator c := by
  generalize htext : c :: input = text at h
  cases h with
  | single hc =>
      cases htext
      have hall : ∀ e ∈ singleEscapes, ¬ IsLineTerminator e.1 := by decide
      exact hall _ hc
  | nonEscape hc =>
      cases htext
      exact hc.2.2.2.2
  | nul _ | hex _ _ | hex4 _ _ | codePoint _ _ =>
      cases htext
      decide

/-- The characters of an escape sequence behind the first one: digits, a plus sign, or braces. -/
def IsEscapeTail (c : ℕ) : Prop := IsHexDigit c ∨ c = 0x2B ∨ c = 0x7B ∨ c = 0x7D

/-- What may follow in an escape sequence is told by its code point. -/
instance (c : ℕ) : Decidable (IsEscapeTail c) := inferInstanceAs (Decidable (_ ∨ _))

/-- A numeral consists of digits and perhaps a sign. -/
theorem IsHexNumeral.mem (h : IsHexNumeral signed s v) : ∀ c ∈ s, IsHexDigit c ∨ c = 0x2B := by
  intro c hc
  cases h with
  | digits _ hdigits => exact .inl (areHexDigits_iff.mpr ⟨_, hdigits⟩ c hc)
  | plus _ hdigits =>
      cases List.mem_cons.mp hc with
      | inl heq => exact .inr heq
      | inr hmem => exact .inl (areHexDigits_iff.mpr ⟨_, hdigits⟩ c hmem)

/-- The text of an escape sequence; most have one character only. -/
theorem IsSharedEscape.exists_tail (h : IsSharedEscape signed input middle v) :
    ∃ c t, input = c :: (t ++ middle) ∧ (∀ d ∈ t, IsEscapeTail d) ∧
      (t = [] ∨ c = 0x78 ∨ c = 0x75) := by
  have hnumeral {signed : Bool} {s : List ℕ} {v : ℕ} (h : IsHexNumeral signed s v) :
      ∀ d ∈ s, IsEscapeTail d := fun d hd => (h.mem d hd).imp_right .inl
  cases h with
  | single _ | nonEscape _ | nul _ =>
      exact ⟨_, [], rfl, fun d hd => absurd hd List.not_mem_nil, .inl rfl⟩
  | hex h _ => exact ⟨_, _, rfl, hnumeral h, .inr (.inl rfl)⟩
  | hex4 h _ => exact ⟨_, _, rfl, hnumeral h, .inr (.inr rfl)⟩
  | @codePoint _ s _ _ h _ =>
      refine ⟨0x75, 0x7B :: (s ++ [0x7D]), by simp, fun d hd => ?_, .inr (.inr rfl)⟩
      rcases List.mem_cons.mp hd with rfl | hd
      · exact .inr (.inr (.inl rfl))
      · rcases List.mem_append.mp hd with hd | hd
        · exact hnumeral h d hd
        · exact .inr (.inr (.inr (List.mem_singleton.mp hd)))

/-- The text of what is no escape sequence. -/
theorem IsNotEscape.exists_tail (h : IsNotEscape input middle) :
    ∃ c t, input = c :: (t ++ middle) ∧ ∀ d ∈ t, IsEscapeTail d := by
  have hdigits {s : List ℕ} (hs : ∀ c ∈ s, IsHexDigit c) : ∀ d ∈ s, IsEscapeTail d :=
    fun d hd => .inl (hs d hd)
  have hbrace {s : List ℕ} (hs : ∀ c ∈ s, IsHexDigit c) : ∀ d ∈ 0x7B :: s, IsEscapeTail d := by
    intro d hd
    rcases List.mem_cons.mp hd with rfl | hd
    · exact .inr (.inr (.inl rfl))
    · exact .inl (hs d hd)
  cases h with
  | @zero c _ hc => exact ⟨0x30, [c], rfl, hdigits (by simpa using .inl hc)⟩
  | digit _ _ => exact ⟨_, [], rfl, fun d hd => absurd hd List.not_mem_nil⟩
  | hex hs _ _ | hex4 hs _ _ _ => exact ⟨_, _, rfl, hdigits hs⟩
  | noCodePoint _ => exact ⟨0x75, [0x7B], rfl, hbrace fun d hd => absurd hd List.not_mem_nil⟩
  | @notCodePoint s _ _ h _ _ => exact ⟨0x75, 0x7B :: s, rfl, hbrace h.isHexDigit⟩
  | @codePoint s _ _ h _ _ _ => exact ⟨0x75, 0x7B :: s, rfl, hbrace h.isHexDigit⟩

/-- An escape sequence is one whatever follows it, if no digit does that did not before. -/
theorem IsSharedEscape.change_rest {text : List ℕ}
    (h : IsSharedEscape signed (text ++ middle) middle v)
    (hnext : NextNot IsDecimalDigit middle → NextNot IsDecimalDigit middle') :
    IsSharedEscape signed (text ++ middle') middle' v := by
  -- the text is what stands in front of the rest
  have htext {t : List ℕ} (h : t ++ middle = text ++ middle) : text = t :=
    (List.append_cancel_right h).symm
  generalize hinput : text ++ middle = input at h
  cases h with
  | @single c _ _ hc =>
      obtain rfl := htext (t := [c]) hinput.symm
      exact .single hc
  | nonEscape hc =>
      obtain rfl := htext (t := [v]) hinput.symm
      exact .nonEscape hc
  | nul hdigit =>
      obtain rfl := htext (t := [0x30]) hinput.symm
      exact .nul (hnext hdigit)
  | @hex _ s _ _ hnumeral hlen =>
      obtain rfl := htext (t := 0x78 :: s) hinput.symm
      exact .hex hnumeral hlen
  | @hex4 _ s _ _ hnumeral hlen =>
      obtain rfl := htext (t := 0x75 :: s) hinput.symm
      exact .hex4 hnumeral hlen
  | @codePoint _ s _ _ hnumeral hle =>
      obtain rfl := htext (t := 0x75 :: 0x7B :: (s ++ [0x7D])) (by simpa using hinput.symm)
      have hcodePoint := @IsSharedEscape.codePoint _ _ _ middle' hnumeral hle
      simpa using hcodePoint

/-- Two hexadecimal digits, or four, are more than what is no escape sequence has. -/
private theorem not_hexDigits_shorter (h : IsHexNumeral false s v) (hlt : s'.length < s.length)
    (hnext : NextNot IsHexDigit rest') : s ++ rest ≠ s' ++ rest' := fun heq =>
  Nat.not_le_of_lt hlt (length_le_of_nextNot h.isHexDigit hnext heq)

/-- A digit is no brace. -/
private theorem hexDigits_ne_brace (h : IsHexNumeral false s v) (t : List ℕ) :
    s ++ rest ≠ 0x7B :: t := by
  intro heq
  cases s with
  | nil => exact h.ne_nil rfl
  | cons c s =>
      cases heq
      exact absurd (h.isHexDigit _ List.mem_cons_self) (by decide)

/-- The braces of a code point end its digits. -/
private theorem codePoint_unique {v' : ℕ} (h : IsHexNumeral false s v)
    (h' : IsHexNumeral false s' v') (hnext : NextNot IsHexDigit rest')
    (heq : s ++ 0x7D :: rest = s' ++ rest') : v = v' ∧ rest' = 0x7D :: rest := by
  have hbrace : NextNot IsHexDigit (0x7D :: rest) := (nextNot_cons _).mpr (by decide)
  obtain ⟨rfl, hrest⟩ := run_unique h.isHexDigit h'.isHexDigit hbrace hnext heq
  obtain ⟨-, digits, hdigits, rfl⟩ := isHexNumeral_false_iff.mp h
  obtain ⟨-, digits', hdigits', rfl⟩ := isHexNumeral_false_iff.mp h'
  exact ⟨by rw [hdigits.unique hdigits'], hrest.symm⟩

/-- **No text starts both with an escape sequence and with what is none.** -/
theorem IsSharedEscape.exclusive (h : IsSharedEscape false input middle v) :
    ¬ IsNotEscape input middle' := by
  intro hnot
  cases h with
  | single hc => exact singleEscape_not_first hc hnot.first
  | nonEscape hc =>
      obtain ⟨-, hdigit, hx, hu, -⟩ := hc
      rcases hnot.first with h | h | h
      · exact hdigit h
      · exact hx h
      · exact hu h
  | nul hnext =>
      cases hnot with
      | zero hc => exact (nextNot_cons _).mp hnext hc
      | digit _ hne => exact hne rfl
  | hex hdigits hlen =>
      generalize htext : 0x78 :: (_ ++ _) = text at hnot
      cases hnot with
      | zero _ => cases htext
      | digit hc _ =>
          cases htext
          exact absurd hc (by decide)
      | hex _ hlt hnext =>
          exact not_hexDigits_shorter hdigits (by omega) hnext (List.cons.inj htext).2
      | hex4 _ _ _ _ | noCodePoint _ | notCodePoint _ _ _ | codePoint _ _ _ _ =>
          exact absurd (List.cons.inj htext).1 (by decide)
  | hex4 hdigits hlen =>
      generalize htext : 0x75 :: (_ ++ _) = text at hnot
      cases hnot with
      | zero _ => cases htext
      | digit hc _ =>
          cases htext
          exact absurd hc (by decide)
      | hex _ _ _ => exact absurd (List.cons.inj htext).1 (by decide)
      | hex4 _ hlt hnext _ =>
          exact not_hexDigits_shorter hdigits (by omega) hnext (List.cons.inj htext).2
      | noCodePoint _ | notCodePoint _ _ _ | codePoint _ _ _ _ =>
          exact hexDigits_ne_brace hdigits _ (List.cons.inj htext).2
  | codePoint hdigits hle =>
      generalize htext : 0x75 :: 0x7B :: (_ ++ _) = text at hnot
      cases hnot with
      | zero _ => cases htext
      | digit hc _ =>
          cases htext
          exact absurd hc (by decide)
      | hex _ _ _ => exact absurd (List.cons.inj htext).1 (by decide)
      | @hex4 s' _ hs' _ _ hbrace =>
          have hrest := (List.cons.inj htext).2
          cases s' with
          | nil =>
              rw [List.nil_append] at hrest
              exact hbrace rfl 0x7B (by rw [← hrest]; rfl) rfl
          | cons c s' =>
              have hc : 0x7B = c := (List.cons.inj hrest).1
              exact absurd (hs' c List.mem_cons_self) (hc ▸ by decide)
      | noCodePoint hnext =>
          have hrest := (List.cons.inj (List.cons.inj htext).2).2
          exact @not_hexDigits_shorter _ [] _ _ _ hdigits (List.length_pos_iff.mpr hdigits.ne_nil)
            hnext hrest
      | notCodePoint hdigits' hgt hnext =>
          have hrest := (List.cons.inj (List.cons.inj htext).2).2
          have hv := (codePoint_unique hdigits hdigits' hnext hrest).1
          omega
      | codePoint hdigits' _ hnext hbrace =>
          have hrest := (List.cons.inj (List.cons.inj htext).2).2
          have heq := (codePoint_unique hdigits hdigits' hnext hrest).2
          exact hbrace 0x7D (by rw [heq]; rfl) rfl

/-- Some digits of a run are an escape sequence, or all of them are too few. -/
private theorem hexDigits_or_few (count : ℕ) (hcount : 0 < count) (input : List ℕ) :
    (∃ s rest v, input = s ++ rest ∧ s.length = count ∧ IsHexNumeral false s v) ∨
      ∃ s rest, input = s ++ rest ∧ (∀ c ∈ s, IsHexDigit c) ∧ s.length < count ∧
        NextNot IsHexDigit rest := by
  obtain ⟨s, rest, rfl, hs, hnext⟩ := exists_run (p := IsHexDigit) input
  obtain hlt | hge := Nat.lt_or_ge s.length count
  · exact .inr ⟨s, rest, rfl, hs, hlt, hnext⟩
  · have hlen : (s.take count).length = count := by rw [List.length_take]; omega
    obtain ⟨v, hv⟩ := exists_isHexNumeral (s := s.take count)
      (List.ne_nil_of_length_pos (by omega)) fun c hc => hs c (List.mem_of_mem_take hc)
    exact .inl ⟨s.take count, s.drop count ++ rest, v,
      by rw [← List.append_assoc, List.take_append_drop], hlen, hv⟩

/-- **Every text starts with an escape sequence, with what is none, or with a line terminator.** -/
theorem exists_escape (c : ℕ) (input : List ℕ) :
    (∃ middle unit, IsLineTerminatorSequence (c :: input) middle unit) ∨
      (∃ middle v, IsSharedEscape false (c :: input) middle v) ∨
      ∃ middle, IsNotEscape (c :: input) middle := by
  by_cases hline : IsLineTerminator c
  · left
    rcases hline with rfl | rfl | rfl | rfl
    · exact ⟨_, _, .lf⟩
    · by_cases hnext : input.head? = some 0x0A
      · obtain ⟨rest, rfl⟩ := List.head?_eq_some_iff.mp hnext
        exact ⟨_, _, .crLf⟩
      · exact ⟨_, _, .cr fun c hc heq => hnext (heq ▸ hc)⟩
    · exact ⟨_, _, .ls⟩
    · exact ⟨_, _, .ps⟩
  right
  by_cases hsingle : ∃ v, (c, v) ∈ singleEscapes
  · obtain ⟨v, hv⟩ := hsingle
    exact .inl ⟨_, _, .single hv⟩
  by_cases hx : c = 0x78
  · subst hx
    obtain ⟨s, rest, v, rfl, hlen, hv⟩ | ⟨s, rest, rfl, hs, hlt, hnext⟩ :=
      hexDigits_or_few 2 two_pos input
    · exact .inl ⟨_, _, .hex hv hlen⟩
    · exact .inr ⟨_, .hex hs hlt hnext⟩
  by_cases hu : c = 0x75
  · subst hu
    by_cases hbrace : input.head? = some 0x7B
    · obtain ⟨input, rfl⟩ := List.head?_eq_some_iff.mp hbrace
      obtain ⟨s, rest, rfl, hs, hnext⟩ := exists_run (p := IsHexDigit) input
      by_cases hnil : s = []
      · subst hnil
        exact .inr ⟨_, .noCodePoint hnext⟩
      obtain ⟨v, hv⟩ := exists_isHexNumeral hnil hs
      obtain hgt | hle := Nat.lt_or_ge 0x10FFFF v
      · exact .inr ⟨_, .notCodePoint hv hgt hnext⟩
      by_cases hclose : rest.head? = some 0x7D
      · obtain ⟨rest, rfl⟩ := List.head?_eq_some_iff.mp hclose
        exact .inl ⟨_, _, .codePoint hv hle⟩
      · exact .inr ⟨_, .codePoint hv hle hnext fun c hc heq => hclose (heq ▸ hc)⟩
    · obtain ⟨s, rest, v, rfl, hlen, hv⟩ | ⟨s, rest, rfl, hs, hlt, hnext⟩ :=
        hexDigits_or_few 4 (by omega) input
      · exact .inl ⟨_, _, .hex4 hv hlen⟩
      · refine .inr ⟨_, .hex4 hs hlt hnext ?_⟩
        rintro rfl c hc rfl
        exact hbrace hc
  by_cases hdigit : IsDecimalDigit c
  · by_cases hzero : c = 0x30
    · subst hzero
      cases input with
      | nil => exact .inl ⟨_, _, .nul nextNot_nil⟩
      | cons c' input =>
          by_cases hc' : IsDecimalDigit c'
          · exact .inr ⟨_, .zero hc'⟩
          · exact .inl ⟨_, _, .nul ((nextNot_cons c').mpr hc')⟩
    · exact .inr ⟨_, .digit hdigit hzero⟩
  · exact .inl ⟨_, _, .nonEscape ⟨fun v hv => hsingle ⟨v, hv⟩, hdigit, hx, hu, hline⟩⟩

end BoaLigero.Lexer
