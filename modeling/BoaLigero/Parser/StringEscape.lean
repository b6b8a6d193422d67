import BoaLigero.Parser.Cursor
import BoaLigero.Parser.EscapeGrammar
import Mathlib.Data.List.Forall2

/-!
# Escapes of String Literals

What the lexer reads behind a backslash in a string literal (`lexer/string.rs`).

## Main results

* `fromStrRadix_mapM_iff` — the hexadecimal digits that are read may have a plus sign in front of
  them.
* `takeEscapeSequenceOrLineContinuation_iff` — what is read behind a backslash.
* `IsEscaped.unique`, `IsEscaped.isSignedStart_iff` — that is unique, and starts with a plus sign in
  front of its digits or not.
-/

namespace BoaLigero.Lexer

open Digits

/-- The kinds of escape sequences that a string contains (`token::EscapeSequence`). -/
structure EscapeSequence where
  legacyOctal : Bool := false
  nonOctalDecimal : Bool := false
  other : Bool := false
  deriving DecidableEq

/-- `BitOr::bitor`. -/
def EscapeSequence.union (a b : EscapeSequence) : EscapeSequence where
  legacyOctal := a.legacyOctal || b.legacyOctal
  nonOctalDecimal := a.nonOctalDecimal || b.nonOctalDecimal
  other := a.other || b.other

/-- `push_code_point`. The conversions to code units do not fail for code points. -/
def pushCodePoint (buf : List UInt16) (codePoint : ℕ) : List UInt16 :=
  if codePoint < 2 ^ 16 then buf ++ [.ofNat codePoint]
  else
    let codePoint := codePoint - 0x10000
    buf ++ [.ofNat (codePoint / 1024 + 0xD800)] ++ [.ofNat (codePoint % 1024 + 0xDC00)]

/-- `is_line_terminator`. -/
def isLineTerminator (ch : ℕ) : Bool := ch == 0x000A || ch == 0x000D || ch == 0x2028 || ch == 0x2029

/-- The escape characters that stand for one code unit each. -/
def singleEscape : ℕ → Option ℕ
  | 0x0062 => some 0x0008
  | 0x0074 => some 0x0009
  | 0x006E => some 0x000A
  | 0x0076 => some 0x000B
  | 0x0066 => some 0x000C
  | 0x0072 => some 0x000D
  | 0x0022 => some 0x0022
  | 0x0027 => some 0x0027
  | 0x005C => some 0x005C
  | _ => none

/-- Reads a fixed number of characters, which must be there. -/
def takeChars (message : String) (startPos : Position) :
    ℕ → Cursor → Except Error (List ℕ × Cursor)
  | 0, cursor => .ok ([], cursor)
  | count + 1, cursor =>
      match cursor.nextChar with
      | (none, _) => .error (.syntaxError message startPos)
      | (some ch, cursor) =>
          match takeChars message startPos count cursor with
          | .error error => .error error
          | .ok (chs, cursor) => .ok (ch :: chs, cursor)

/-- Reads a fixed number of characters as a hexadecimal number of 16 bits. -/
def takeFixedHex (count : ℕ) (message : String) (cursor : Cursor) (startPos : Position) :
    Except Error (ℕ × Cursor) :=
  match takeChars message startPos count cursor with
  | .error error => .error error
  | .ok (buffer, cursor) =>
      match (buffer.mapM charFromU32).bind (fromStrRadix 16 16) with
      | none => .error (.syntaxError message startPos)
      | some codePoint => .ok (codePoint, cursor)

/-- `take_hex_escape_sequence`. -/
def takeHexEscapeSequence : Cursor → Position → Except Error (ℕ × Cursor) :=
  takeFixedHex 2 "invalid Hexadecimal escape sequence"

/-- `take_unicode_escape_sequence`. -/
def takeUnicodeEscapeSequence (cursor : Cursor) (startPos : Position) : Except Error (ℕ × Cursor) :=
  match cursor.nextIf 0x7B with
  | (true, cursor) =>
      match cursor.takeUntil 0x7D [] with
      | .error error => .error error
      | .ok (codePointBuf, cursor) =>
          match (codePointBuf.mapM charFromU32).bind (fromStrRadix 32 16) with
          | none => .error (.syntaxError "malformed Unicode character escape sequence" startPos)
          | some codePoint =>
              if codePoint > 0x10FFFF then
                .error (.syntaxError
                  "Unicode codepoint must not be greater than 0x10FFFF in escape sequence" startPos)
              else .ok (codePoint, cursor)
  | (false, cursor) => takeFixedHex 4 "invalid Unicode escape sequence" cursor startPos

/-- The octal digit that is next. -/
def peekOctalDigit (cursor : Cursor) : Option ℕ :=
  cursor.peekChar.filter fun c => decide (0x30 ≤ c ∧ c ≤ 0x37)

/-- `take_legacy_octal_escape_sequence`. -/
def takeLegacyOctalEscapeSequence (cursor : Cursor) (initByte : ℕ) : ℕ × Cursor :=
  let codePoint := initByte - 0x30
  match peekOctalDigit cursor with
  | none => (codePoint, cursor)
  | some c =>
      let cursor := cursor.advance
      let codePoint := codePoint * 8 + c - 0x30
      if 0x30 ≤ initByte ∧ initByte ≤ 0x33 then
        match peekOctalDigit cursor with
        | none => (codePoint, cursor)
        | some c => (codePoint * 8 + c - 0x30, cursor.advance)
      else (codePoint, cursor)

/-- What is read behind a backslash: an escape sequence, with the code unit or code point that it
stands for and its kind, or a line continuation, which stands for nothing
(`take_escape_sequence_or_line_continuation`). -/
def takeEscapeSequenceOrLineContinuation (cursor : Cursor) (startPos : Position)
    (strict isTemplateLiteral : Bool) : Except Error ((Option ℕ × EscapeSequence) × Cursor) :=
  match cursor.nextChar with
  | (none, _) => .error (.unexpectedEof "unterminated escape sequence in literal")
  | (some escapeCh, cursor) =>
      match singleEscape escapeCh with
      | some value => .ok ((some value, { other := true }), cursor)
      | none =>
          if escapeCh = 0x0030 ∧ cursor.peekChar.all (fun c => !decide (0x30 ≤ c ∧ c ≤ 0x39)) then
            .ok ((some 0x0000, { other := true }), cursor)
          else if escapeCh = 0x0078 then
            (takeHexEscapeSequence cursor startPos).map fun (value, cursor) =>
              ((some value, { other := true }), cursor)
          else if escapeCh = 0x0075 then
            (takeUnicodeEscapeSequence cursor startPos).map fun (value, cursor) =>
              ((some value, { other := true }), cursor)
          else if escapeCh = 0x0038 ∨ escapeCh = 0x0039 then
            if isTemplateLiteral then
              .error (.syntaxError "\\8 and \\9 are not allowed in template literal" startPos)
            else if strict then
              .error (.syntaxError "\\8 and \\9 are not allowed in strict mode" startPos)
            else .ok ((some escapeCh, { nonOctalDecimal := true }), cursor)
          else if 0x0030 ≤ escapeCh ∧ escapeCh ≤ 0x0037 then
            if isTemplateLiteral then
              .error (.syntaxError "octal escape sequences are not allowed in template literal" startPos)
            else if strict then
              .error (.syntaxError "octal escape sequences are not allowed in strict mode" startPos)
            else
              let (value, cursor) := takeLegacyOctalEscapeSequence cursor escapeCh
              .ok ((some value, { legacyOctal := true }), cursor)
          else if isLineTerminator escapeCh then .ok ((none, { other := true }), cursor)
          else .ok ((some escapeCh, { other := true }), cursor)

/-- What is pushed are the code units of the code point. -/
theorem pushCodePoint_eq (buf : List UInt16) (codePoint : ℕ) :
    pushCodePoint buf codePoint = buf ++ utf16EncodeCodePoint codePoint := by
  rw [pushCodePoint, utf16EncodeCodePoint]
  by_cases h : codePoint < 2 ^ 16
  · rw [if_pos h, if_pos (by omega)]
  · rw [if_neg h, if_neg (by omega), List.append_assoc]
    rfl

/-! ### Hexadecimal digits -/

variable {signed : Bool} {v bits : ℕ} {s digits rest chs : List ℕ} {cursor : Cursor}

/-- A map with failures succeeds exactly if it does on each element. -/
theorem mapM_eq_some_iff {α β : Type} {f : α → Option β} {xs : List α} {ys : List β} :
    xs.mapM f = some ys ↔ List.Forall₂ (fun x y => f x = some y) xs ys := by
  induction xs generalizing ys with
  | nil =>
      rw [List.mapM_nil, List.forall₂_nil_left_iff]
      exact ⟨fun h => (Option.some.inj h).symm, fun h => h ▸ rfl⟩
  | cons x xs ih =>
      simp only [List.mapM_cons, bind, Option.bind_eq_some_iff, pure, Option.some.injEq]
      constructor
      · rintro ⟨y, hy, ys', hys, rfl⟩
        exact .cons hy (ih.mp hys)
      · intro h
        cases h with
        | cons hy hys => exact ⟨_, hy, _, ih.mpr hys, rfl⟩

/-- A digit as a code point is a digit as a character. -/
theorem isDigit_iff_toDigit {radix c d : ℕ} {ch : Char} (h : charFromU32 c = some ch) :
    IsDigit radix c d ↔ toDigit radix ch = some d := by
  rw [toDigit_eq_some_iff, toNat_of_charFromU32 h, IsDigit]

/-- Digits that are characters are digits of the grammar. -/
theorem areDigits_of_isDigits {cs : List Char}
    (h : List.Forall₂ (fun c ch => charFromU32 c = some ch) s cs) (hdigits : IsDigits 16 cs digits) :
    AreDigits 16 s digits := by
  induction h generalizing digits with
  | nil =>
      cases hdigits
      exact .nil
  | cons hc _ ih =>
      cases hdigits with
      | cons hd htail => exact .cons ((isDigit_iff_toDigit hc).mpr hd) (ih htail)

/-- Digits of the grammar are characters, and digits as such. -/
theorem exists_isDigits (h : AreDigits 16 s digits) :
    ∃ cs, List.Forall₂ (fun c ch => charFromU32 c = some ch) s cs ∧ IsDigits 16 cs digits := by
  induction h with
  | nil => exact ⟨[], .nil, .nil⟩
  | @cons c d s digits hd _ ih =>
      obtain ⟨cs, hcs, hdigits⟩ := ih
      obtain ⟨ch, hch, -⟩ := charFromU32_of_lt (n := c) (by rw [IsDigit] at hd; omega)
      exact ⟨ch :: cs, .cons hch hcs, .cons ((isDigit_iff_toDigit hch).mp hd) hdigits⟩

/-- **What is read as a hexadecimal number**: digits, behind a plus sign or not. -/
theorem fromStrRadix_mapM_iff :
    (s.mapM charFromU32).bind (fromStrRadix bits 16) = some v ↔
      (∃ signed, IsHexNumeral signed s v) ∧ v < 2 ^ bits := by
  simp only [Option.bind_eq_some_iff, mapM_eq_some_iff]
  constructor
  · rintro ⟨cs, hcs, hread⟩
    obtain ⟨t, digits, ht, hne, hdigits, rfl, hlt⟩ := (fromStrRadix_eq_some_iff (by decide)).mp hread
    refine ⟨?_, hlt⟩
    rcases ht with rfl | rfl
    · refine ⟨false, .digits ?_ (areDigits_of_isDigits hcs hdigits)⟩
      rintro rfl
      cases hcs
      exact hne rfl
    · cases hcs with
      | @cons c _ s _ hc htail =>
          have hplus : c = 0x2B := (toNat_of_charFromU32 hc).symm
          subst hplus
          refine ⟨true, .plus ?_ (areDigits_of_isDigits htail hdigits)⟩
          rintro rfl
          cases htail
          exact hne rfl
  · rintro ⟨⟨signed, h⟩, hlt⟩
    have hread {t : List ℕ} {digits : List ℕ} (hne : t ≠ []) (hdigits : AreDigits 16 t digits) :
        ∃ cs, List.Forall₂ (fun c ch => charFromU32 c = some ch) t cs ∧ cs ≠ [] ∧
          IsDigits 16 cs digits := by
      obtain ⟨cs, hcs, hds⟩ := exists_isDigits hdigits
      refine ⟨cs, hcs, ?_, hds⟩
      rintro rfl
      cases hcs
      exact hne rfl
    cases h with
    | digits hne hdigits =>
        obtain ⟨cs, hcs, hcsne, hds⟩ := hread hne hdigits
        exact ⟨cs, hcs, (fromStrRadix_eq_some_iff (by decide)).mpr
          ⟨cs, _, .inl rfl, hcsne, hds, rfl, hlt⟩⟩
    | plus hne hdigits =>
        obtain ⟨cs, hcs, hcsne, hds⟩ := hread hne hdigits
        exact ⟨'+' :: cs, .cons rfl hcs, (fromStrRadix_eq_some_iff (by decide)).mpr
          ⟨cs, _, .inr rfl, hcsne, hds, rfl, hlt⟩⟩

/-- No numeral has a carriage return or a brace in it. -/
theorem IsHexNumeral.not_mem (h : IsHexNumeral signed s v) : 0x0D ∉ s ∧ 0x7D ∉ s := by
  constructor
  · intro hmem
    exact absurd (h.mem _ hmem) (by decide)
  · intro hmem
    exact absurd (h.mem _ hmem) (by decide)

/-- A numeral is smaller than the power of its length. -/
theorem IsHexNumeral.lt (h : IsHexNumeral signed s v) : v < 16 ^ s.length := by
  have hlt {t digits : List ℕ} (hdigits : AreDigits 16 t digits) :
      ofDigits 16 digits < 16 ^ t.length := by
    rw [hdigits.length_eq]
    refine ofDigits_lt fun d hd => ?_
    obtain ⟨i, hi, rfl⟩ := List.getElem_of_mem hd
    exact (hdigits.get (by rw [hdigits.length_eq]; exact hi) hi).1
  cases h with
  | digits _ hdigits => exact hlt hdigits
  | plus _ hdigits =>
      exact (hlt hdigits).trans (Nat.pow_lt_pow_right (by omega) (Nat.lt_succ_self _))

/-! ### Escape sequences -/

variable {message : String} {startPos : Position} {count : ℕ}

/-- What was taken are the next code points, as many as were to be taken; a carriage return would
have been replaced. -/
theorem takeChars_sound (h : Delivers (takeChars message startPos count cursor) chs rest)
    (hcr : 0x0D ∉ chs) : cursor.rest = chs ++ rest ∧ chs.length = count := by
  induction count generalizing cursor chs with
  | zero =>
      rw [takeChars, delivers_ok] at h
      obtain ⟨rfl, rfl⟩ := h
      exact ⟨rfl, rfl⟩
  | succ count ih =>
      rw [takeChars] at h
      split at h
      · exact absurd h not_delivers_error
      · next ch _ hnext =>
          obtain ⟨hpeek, rfl⟩ := Prod.mk.inj hnext
          obtain ⟨after, hafter⟩ := Cursor.exists_rest_of_peekChar hpeek
          split at h
          · exact absurd h not_delivers_error
          · next chs' cursor' htake =>
              rw [delivers_ok] at h
              obtain ⟨rfl, hrest⟩ := h
              rw [List.mem_cons, not_or] at hcr
              obtain ⟨heq, rfl⟩ := ih ⟨cursor', htake, hrest⟩ hcr.2
              rw [Cursor.rest_advance_of_ne hafter (Ne.symm hcr.1)] at heq
              exact ⟨by rw [hafter, heq, List.cons_append], rfl⟩

/-- Code points that come next can be taken, if there is no carriage return among them. -/
theorem takeChars_complete (h : cursor.rest = chs ++ rest) (hcr : 0x0D ∉ chs) :
    Delivers (takeChars message startPos chs.length cursor) chs rest := by
  induction chs generalizing cursor with
  | nil => exact ⟨cursor, rfl, h⟩
  | cons ch chs ih =>
      rw [List.mem_cons, not_or] at hcr
      obtain ⟨cursor', htake, hrest⟩ :=
        ih (Cursor.rest_advance_of_ne h (Ne.symm hcr.1)) hcr.2
      have hpeek : cursor.peekChar = some ch := by rw [Cursor.peekChar, h]; rfl
      rw [List.length_cons, takeChars, Cursor.nextChar, hpeek]
      simp only [htake]
      exact ⟨cursor', rfl, hrest⟩

/-- **The digits of `\x`, and of `\u` without braces.** -/
theorem takeFixedHex_iff (hcount : count ≤ 4) :
    Delivers (takeFixedHex count message cursor startPos) v rest ↔
      ∃ signed s, cursor.rest = s ++ rest ∧ s.length = count ∧ IsHexNumeral signed s v := by
  constructor
  · intro h
    rw [takeFixedHex] at h
    split at h
    · exact absurd h not_delivers_error
    · next buffer cursor' htake =>
        split at h
        · exact absurd h not_delivers_error
        · next codePoint hread =>
            rw [delivers_ok] at h
            obtain ⟨rfl, hrest⟩ := h
            obtain ⟨⟨signed, hnumeral⟩, -⟩ := fromStrRadix_mapM_iff.mp hread
            obtain ⟨heq, hlen⟩ := takeChars_sound ⟨cursor', htake, hrest⟩ hnumeral.not_mem.1
            exact ⟨signed, buffer, heq, hlen, hnumeral⟩
  · rintro ⟨signed, s, hrest, rfl, hnumeral⟩
    obtain ⟨cursor', htake, hrest'⟩ :=
      @takeChars_complete _ _ _ message startPos hrest hnumeral.not_mem.1
    have hlt : v < 2 ^ 16 := hnumeral.lt.trans_le (Nat.pow_le_pow_right (n := 16) (by omega) hcount)
    rw [takeFixedHex, htake]
    simp only [fromStrRadix_mapM_iff.mpr ⟨⟨signed, hnumeral⟩, hlt⟩]
    exact ⟨cursor', rfl, hrest'⟩

/-- The first character of a numeral is no brace. -/
theorem IsHexNumeral.append_ne (h : IsHexNumeral signed s v) (t : List ℕ) :
    s ++ rest ≠ 0x7B :: t := by
  intro heq
  cases s with
  | nil => exact h.ne_nil rfl
  | cons c s =>
      obtain ⟨rfl, -⟩ := List.cons.inj heq
      exact absurd (h.mem _ List.mem_cons_self) (by decide)

/-- A hexadecimal numeral does not begin with a brace. -/
theorem IsHexNumeral.peekChar_ne (h : IsHexNumeral signed s v) (hrest : cursor.rest = s ++ rest) :
    cursor.peekChar ≠ some 0x7B := by
  intro hpeek
  obtain ⟨after, hafter⟩ := Cursor.exists_rest_of_peekChar hpeek
  exact h.append_ne after (hrest ▸ hafter)

/-- **The escapes of `\u`.** -/
theorem takeUnicodeEscapeSequence_iff :
    Delivers (takeUnicodeEscapeSequence cursor startPos) v rest ↔
      ∃ signed, IsSharedEscape signed (0x75 :: cursor.rest) rest v := by
  constructor
  · intro h
    rw [takeUnicodeEscapeSequence, Cursor.nextIf] at h
    by_cases hbrace : cursor.peekChar = some 0x7B
    · obtain ⟨after, hafter⟩ := Cursor.exists_rest_of_peekChar hbrace
      simp only [hbrace, if_true] at h
      split at h
      · exact absurd h not_delivers_error
      · next codePointBuf cursor' htake =>
          split at h
          · exact absurd h not_delivers_error
          · next codePoint hread =>
              split at h
              · exact absurd h not_delivers_error
              · next hle =>
                  rw [delivers_ok] at h
                  obtain ⟨rfl, hrest⟩ := h
                  obtain ⟨⟨signed, hnumeral⟩, -⟩ := fromStrRadix_mapM_iff.mp hread
                  obtain ⟨taken, rfl, heq, -⟩ := Cursor.takeUntil_sound ⟨cursor', htake, hrest⟩
                    hnumeral.not_mem.1 (by decide)
                  rw [Cursor.rest_advance_of_ne hafter (by decide)] at heq
                  rw [hafter, heq]
                  exact ⟨signed, .codePoint hnumeral (Nat.le_of_not_lt hle)⟩
    · simp only [hbrace, if_false] at h
      obtain ⟨signed, s, hrest, hlen, hnumeral⟩ := (takeFixedHex_iff (by decide)).mp h
      rw [hrest]
      exact ⟨signed, .hex4 hnumeral hlen⟩
  · rintro ⟨signed, h⟩
    generalize htext : 0x75 :: cursor.rest = text at h
    rw [takeUnicodeEscapeSequence, Cursor.nextIf]
    cases h with
    | single hc =>
        cases htext
        exact absurd (.inr (.inr rfl)) (singleEscape_not_first hc)
    | nonEscape hc =>
        cases htext
        exact absurd rfl hc.2.2.2.1
    | nul _ => cases htext
    | hex _ _ => cases htext
    | hex4 hnumeral hlen =>
        have hrest := (List.cons.inj htext).2
        simp only [hnumeral.peekChar_ne hrest, if_false]
        exact (takeFixedHex_iff (by decide)).mpr ⟨_, _, hrest, hlen, hnumeral⟩
    | codePoint hnumeral hle =>
        have hrest := (List.cons.inj htext).2
        have hpeek : cursor.peekChar = some 0x7B := by rw [Cursor.peekChar, hrest]; rfl
        obtain ⟨cursor', htake, hrest'⟩ := Cursor.takeUntil_complete
          (Cursor.rest_advance_of_ne hrest (by decide)) hnumeral.not_mem.2 hnumeral.not_mem.1
          (by decide) []
        rw [List.nil_append] at htake
        simp only [hpeek, if_true, htake]
        have hlt : v < 2 ^ 32 := hle.trans_lt (by decide)
        simp only [fromStrRadix_mapM_iff.mpr ⟨⟨_, hnumeral⟩, hlt⟩]
        rw [if_neg (Nat.not_lt_of_le hle)]
        exact ⟨cursor', rfl, hrest'⟩

/-- An octal digit is a digit, whose value is counted from `0`. -/
theorem isDigit_eight_iff {c d : ℕ} : IsDigit 8 c d ↔ IsOctalDigit c ∧ d = c - 0x30 := by
  rw [isDigit_iff_of_le (by decide), IsOctalDigit]
  omega

/-- No octal digit is peeked exactly if the next code point is none. -/
theorem peekOctalDigit_eq_none_iff :
    peekOctalDigit cursor = none ↔ NextNot IsOctalDigit cursor.rest := by
  simp only [peekOctalDigit, Cursor.peekChar, Option.filter_eq_none_iff, decide_eq_true_eq, NextNot,
    IsOctalDigit, Option.mem_def]

/-- An octal digit is peeked exactly if it comes next. -/
theorem peekOctalDigit_eq_some_iff {c : ℕ} :
    peekOctalDigit cursor = some c ↔ (∃ after, cursor.rest = c :: after) ∧ IsOctalDigit c := by
  rw [peekOctalDigit, Option.filter_eq_some_iff, decide_eq_true_eq, Cursor.peekChar,
    List.head?_eq_some_iff, IsOctalDigit]

/-- An octal digit leaves all that follows it. -/
theorem rest_advance_of_octal {c : ℕ} {after : List ℕ} (h : cursor.rest = c :: after)
    (hc : IsOctalDigit c) : cursor.advance.rest = after :=
  Cursor.rest_advance_of_ne h fun heq => absurd hc (heq ▸ by decide)

/-- What is taken for a legacy octal escape sequence is one by the grammar, also as to where it
ends. -/
theorem takeLegacyOctalEscapeSequence_sound {c : ℕ} (hc : IsOctalDigit c)
    (hzero : c = 0x30 → ∃ c' after, cursor.rest = c' :: after ∧ IsDecimalDigit c') :
    IsLegacyEscape (c :: cursor.rest) (takeLegacyOctalEscapeSequence cursor c).2.rest
      (takeLegacyOctalEscapeSequence cursor c).1 := by
  have hd : IsDigit 8 c (c - 0x30) := isDigit_eight_iff.mpr ⟨hc, rfl⟩
  rw [takeLegacyOctalEscapeSequence]
  cases hpeek : peekOctalDigit cursor with
  | none =>
      simp only
      rw [peekOctalDigit_eq_none_iff] at hpeek
      by_cases h : c = 0x30
      · subst h
        obtain ⟨c', after, hrest, hc'⟩ := hzero rfl
        rw [hrest, nextNot_cons] at hpeek
        rw [hrest]
        refine .nul ?_
        rw [IsDecimalDigit] at hc'
        rw [IsOctalDigit] at hpeek
        omega
      · refine .nonZero hd ?_ hpeek
        rw [IsOctalDigit] at hc
        omega
  | some c' =>
      obtain ⟨⟨after, hrest⟩, hc'⟩ := peekOctalDigit_eq_some_iff.mp hpeek
      have hadvance := rest_advance_of_octal hrest hc'
      have hd' : IsDigit 8 c' (c' - 0x30) := isDigit_eight_iff.mpr ⟨hc', rfl⟩
      have hvalue : (c - 0x30) * 8 + c' - 0x30 = (c - 0x30) * 8 + (c' - 0x30) :=
        Nat.add_sub_assoc hc'.1 _
      simp only [hvalue]
      rw [hrest]
      split
      · next hlow =>
          have hle : c - 0x30 ≤ 3 := by omega
          cases hpeek' : peekOctalDigit cursor.advance with
          | none =>
              rw [peekOctalDigit_eq_none_iff, hadvance] at hpeek'
              simp only [hadvance]
              exact .zeroToThree hd hle hd' hpeek'
          | some c'' =>
              obtain ⟨⟨after', hrest'⟩, hc''⟩ := peekOctalDigit_eq_some_iff.mp hpeek'
              have hd'' : IsDigit 8 c'' (c'' - 0x30) := isDigit_eight_iff.mpr ⟨hc'', rfl⟩
              simp only [rest_advance_of_octal hrest' hc'']
              rw [hadvance] at hrest'
              rw [hrest', Nat.add_sub_assoc hc''.1]
              exact .three hd hle hd' hd''
      · next hlow =>
          simp only [hadvance]
          refine .fourToSeven hd ?_ hd'
          rw [IsOctalDigit] at hc
          omega

/-- A digit that comes next is peeked. -/
theorem peekOctalDigit_of_digit {c d : ℕ} {after : List ℕ} (h : cursor.rest = c :: after)
    (hc : IsDigit 8 c d) : peekOctalDigit cursor = some c :=
  peekOctalDigit_eq_some_iff.mpr ⟨⟨after, h⟩, (isDigit_eight_iff.mp hc).1⟩

/-- A legacy octal escape sequence of the grammar is taken, with its value, and nothing behind it.
-/
theorem takeLegacyOctalEscapeSequence_complete {c : ℕ} (hc : IsOctalDigit c)
    (h : IsLegacyEscape (c :: cursor.rest) rest v) :
    ∃ cursor', takeLegacyOctalEscapeSequence cursor c = (v, cursor') ∧ cursor'.rest = rest := by
  generalize htext : c :: cursor.rest = text at h
  rw [takeLegacyOctalEscapeSequence]
  cases h with
  | nul hnext =>
      obtain ⟨rfl, hrest⟩ := List.cons.inj htext
      have hnone : peekOctalDigit cursor = none := by
        rw [peekOctalDigit_eq_none_iff, hrest, nextNot_cons, IsOctalDigit]
        omega
      exact ⟨cursor, by simp only [hnone], hrest⟩
  | nonZero hdigit _ hnext =>
      obtain ⟨rfl, hrest⟩ := List.cons.inj htext
      have hnone : peekOctalDigit cursor = none :=
        peekOctalDigit_eq_none_iff.mpr (hrest ▸ hnext)
      exact ⟨cursor, by simp only [hnone, (isDigit_eight_iff.mp hdigit).2], hrest⟩
  | zeroToThree hdigit hle hdigit' hnext =>
      obtain ⟨rfl, hrest⟩ := List.cons.inj htext
      obtain ⟨hc', rfl⟩ := isDigit_eight_iff.mp hdigit'
      obtain ⟨-, rfl⟩ := isDigit_eight_iff.mp hdigit
      have hadvance := rest_advance_of_octal hrest hc'
      have hnone : peekOctalDigit cursor.advance = none :=
        peekOctalDigit_eq_none_iff.mpr (hadvance ▸ hnext)
      have hlow : 0x30 ≤ c ∧ c ≤ 0x33 := ⟨hc.1, by omega⟩
      refine ⟨cursor.advance, ?_, hadvance⟩
      simp only [peekOctalDigit_of_digit hrest hdigit', if_pos hlow, hnone,
        Nat.add_sub_assoc hc'.1]
  | fourToSeven hdigit hle hdigit' =>
      obtain ⟨rfl, hrest⟩ := List.cons.inj htext
      obtain ⟨hc', rfl⟩ := isDigit_eight_iff.mp hdigit'
      obtain ⟨-, rfl⟩ := isDigit_eight_iff.mp hdigit
      have hhigh : ¬ (0x30 ≤ c ∧ c ≤ 0x33) := by omega
      refine ⟨cursor.advance, ?_, rest_advance_of_octal hrest hc'⟩
      simp only [peekOctalDigit_of_digit hrest hdigit', if_neg hhigh, Nat.add_sub_assoc hc'.1]
  | three hdigit hle hdigit' hdigit'' =>
      obtain ⟨rfl, hrest⟩ := List.cons.inj htext
      obtain ⟨hc', rfl⟩ := isDigit_eight_iff.mp hdigit'
      obtain ⟨hc'', rfl⟩ := isDigit_eight_iff.mp hdigit''
      obtain ⟨-, rfl⟩ := isDigit_eight_iff.mp hdigit
      have hadvance := rest_advance_of_octal hrest hc'
      have hlow : 0x30 ≤ c ∧ c ≤ 0x33 := ⟨hc.1, by omega⟩
      refine ⟨cursor.advance.advance, ?_, rest_advance_of_octal hadvance hc''⟩
      simp only [peekOctalDigit_of_digit hrest hdigit', if_pos hlow,
        peekOctalDigit_of_digit hadvance hdigit'', Nat.add_sub_assoc hc'.1,
        Nat.add_sub_assoc hc''.1]
  | nonOctalDecimal h =>
      obtain ⟨rfl, -⟩ := List.cons.inj htext
      rw [IsOctalDigit] at hc
      omega

/-- The escaped characters are those of the table. -/
theorem singleEscape_eq_some_iff {c : ℕ} : singleEscape c = some v ↔ (c, v) ∈ singleEscapes := by
  constructor
  · intro h
    rw [singleEscape.eq_def] at h
    split at h <;> cases h <;> decide
  · intro h
    have hall : ∀ e ∈ singleEscapes, singleEscape e.1 = some e.2 := by decide
    exact hall _ h

/-- What may stand behind a backslash in a string. -/
inductive IsEscaped (strict : Bool) : Bool → List ℕ → List ℕ → Option ℕ → Prop
  | shared {signed input rest v} (h : IsSharedEscape signed input rest v) :
      IsEscaped strict signed input rest (some v)
  | legacy {input rest v} (hstrict : strict = false) (h : IsLegacyEscape input rest v) :
      IsEscaped strict false input rest (some v)
  | lineContinuation {input rest unit} (h : IsLineTerminatorSequence input rest unit) :
      IsEscaped strict false input rest none

/-- The line terminators of the source are those of the grammar. -/
theorem isLineTerminator_iff {c : ℕ} : isLineTerminator c = true ↔ IsLineTerminator c := by
  simp only [isLineTerminator, IsLineTerminator, Bool.or_eq_true, beq_iff_eq, or_assoc]

/-- A line terminator that is read. -/
theorem isLineTerminatorSequence_behind {c : ℕ} (h : isLineTerminator c = true) (after : List ℕ) :
    ∃ unit, IsLineTerminatorSequence (c :: after) (Cursor.behind c after) unit := by
  rcases isLineTerminator_iff.mp h with rfl | rfl | rfl | rfl
  · exact ⟨_, .lf⟩
  · by_cases hlf : after.head? = some 0x0A
    · obtain ⟨rest, rfl⟩ := List.head?_eq_some_iff.mp hlf
      exact ⟨_, .crLf⟩
    · rw [Cursor.behind, if_neg fun hboth => hlf hboth.2]
      exact ⟨_, .cr fun c hc heq => hlf (heq ▸ hc)⟩
  · exact ⟨_, .ls⟩
  · exact ⟨_, .ps⟩

/-- A sequence of line terminators begins with one, and is left behind it, a line feed behind a
carriage return included. -/
theorem behind_of_isLineTerminatorSequence {c : ℕ} {after : List ℕ} {unit : UInt16}
    (h : IsLineTerminatorSequence (c :: after) rest unit) :
    isLineTerminator c = true ∧ Cursor.behind c after = rest := by
  generalize htext : c :: after = text at h
  cases h with
  | lf | ls | ps | crLf =>
      cases htext
      exact ⟨rfl, rfl⟩
  | cr hnext =>
      cases htext
      exact ⟨rfl, if_neg fun hboth => hnext _ hboth.2 rfl⟩

variable {strict : Bool} {value : Option ℕ}

/-- What is delivered with the flag of other escape sequences is delivered without it. -/
private theorem delivers_map_other {result : Except Error (ℕ × Cursor)} {flags : EscapeSequence} :
    Delivers (result.map fun (value, cursor) =>
        ((some value, ({ other := true } : EscapeSequence)), cursor)) (value, flags) rest ↔
      flags = { other := true } ∧ ∃ v, value = some v ∧ Delivers result v rest := by
  constructor
  · rintro ⟨cursor, hmap, hrest⟩
    cases result with
    | error _ => cases hmap
    | ok pair =>
        cases hmap
        exact ⟨rfl, _, rfl, _, rfl, hrest⟩
  · rintro ⟨rfl, v, rfl, cursor, rfl, hrest⟩
    exact ⟨cursor, rfl, hrest⟩

/-- What is read behind a backslash is an escape sequence or line continuation of the grammar. -/
theorem takeEscapeSequenceOrLineContinuation_sound {flags : EscapeSequence}
    (h : Delivers (takeEscapeSequenceOrLineContinuation cursor startPos strict false)
      (value, flags) rest) :
    ∃ signed, IsEscaped strict signed cursor.rest rest value := by
  rw [takeEscapeSequenceOrLineContinuation] at h
  split at h
  · exact absurd h not_delivers_error
  · next c cursor' hnext =>
      obtain ⟨hpeek, rfl⟩ := Prod.mk.inj hnext
      obtain ⟨after, hafter⟩ := Cursor.exists_rest_of_peekChar hpeek
      have hadvance := Cursor.rest_advance hafter
      rw [hafter]
      split at h
      · next v hsingle =>
          rw [delivers_ok] at h
          obtain ⟨hvalue, rfl⟩ := h
          cases hvalue
          have hc := singleEscape_eq_some_iff.mp hsingle
          have hne : c ≠ 0x0D := by
            rintro rfl
            cases hsingle
          rw [hadvance, Cursor.behind_of_ne hne]
          exact ⟨false, .shared (.single hc)⟩
      · next hsingle =>
          have hplain (hne : c ≠ 0x0D) : cursor.advance.rest = after := by
            rw [hadvance, Cursor.behind_of_ne hne]
          simp only [Bool.false_eq_true, if_false] at h
          split_ifs at h with hzero hx hu hnine hstrict hoctal hstrict' hline
          · -- `0`, unless a digit follows
            rw [delivers_ok] at h
            obtain ⟨hvalue, rfl⟩ := h
            cases hvalue
            obtain ⟨rfl, hdigit⟩ := hzero
            have hpeek' : cursor.advance.peekChar = after.head? := by
              rw [Cursor.peekChar, hplain (by decide)]
            rw [hpeek'] at hdigit
            rw [hplain (by decide)]
            refine ⟨false, .shared (.nul fun d hd hd' => ?_)⟩
            rw [Option.mem_def.mp hd, Option.all_some, Bool.not_eq_true', decide_eq_false_iff_not]
              at hdigit
            exact hdigit hd'
          · subst hx
            obtain ⟨-, v, rfl, htake⟩ := delivers_map_other.mp h
            obtain ⟨signed, s, hrest, hlen, hnumeral⟩ := (takeFixedHex_iff (by decide)).mp htake
            rw [hplain (by decide)] at hrest
            rw [hrest]
            exact ⟨signed, .shared (.hex hnumeral hlen)⟩
          · subst hu
            obtain ⟨-, v, rfl, htake⟩ := delivers_map_other.mp h
            obtain ⟨signed, hescape⟩ := takeUnicodeEscapeSequence_iff.mp htake
            rw [hplain (by decide)] at hescape
            exact ⟨signed, .shared hescape⟩
          · exact absurd h not_delivers_error
          · rw [delivers_ok] at h
            obtain ⟨hvalue, rfl⟩ := h
            cases hvalue
            rw [hplain (by omega)]
            exact ⟨false, .legacy (by simpa using hstrict) (.nonOctalDecimal hnine)⟩
          · exact absurd h not_delivers_error
          · rw [delivers_ok] at h
            obtain ⟨hvalue, rfl⟩ := h
            cases hvalue
            have hrest := hplain (by omega)
            refine ⟨false, .legacy (by simpa using hstrict') ?_⟩
            rw [← hrest]
            refine takeLegacyOctalEscapeSequence_sound hoctal ?_
            rintro rfl
            -- the digit that keeps the `0` from being an escape of its own
            have hdigit : cursor.advance.peekChar.all
                (fun c => !decide (0x30 ≤ c ∧ c ≤ 0x39)) ≠ true := fun h => hzero ⟨rfl, h⟩
            rw [Cursor.peekChar, hrest] at hdigit
            cases after with
            | nil => exact absurd rfl hdigit
            | cons c' after =>
                refine ⟨c', after, hrest, ?_⟩
                simpa [IsDecimalDigit] using hdigit
          · rw [delivers_ok] at h
            obtain ⟨hvalue, rfl⟩ := h
            cases hvalue
            obtain ⟨unit, hsequence⟩ := isLineTerminatorSequence_behind hline after
            rw [hadvance]
            exact ⟨false, .lineContinuation hsequence⟩
          · rw [delivers_ok] at h
            obtain ⟨hvalue, rfl⟩ := h
            cases hvalue
            have hterminator : ¬ IsLineTerminator c := fun h => hline (isLineTerminator_iff.mpr h)
            have hne : c ≠ 0x0D := fun heq => hterminator (heq ▸ by decide)
            rw [hplain hne]
            refine ⟨false, .shared (.nonEscape ⟨fun v hv => ?_, ?_, hx, hu, hterminator⟩)⟩
            · rw [singleEscape_eq_some_iff.mpr hv] at hsingle
              cases hsingle
            · rw [IsDecimalDigit]
              omega

/-- The next code point is read, and the cursor moves on by it. -/
theorem nextChar_of_rest {c : ℕ} {after : List ℕ} (h : cursor.rest = c :: after) :
    cursor.nextChar = (some c, cursor.advance) := by
  rw [Cursor.nextChar, Cursor.peekChar, h]
  rfl

/-- An escape sequence that strings and templates share is read, in each mode. -/
theorem takeEscapeSequenceOrLineContinuation_shared (h : IsSharedEscape signed cursor.rest rest v) :
    ∃ flags, Delivers (takeEscapeSequenceOrLineContinuation cursor startPos strict false)
      (some v, flags) rest := by
  generalize hrest : cursor.rest = text at h
  cases h with
  | @single c _ _ hc =>
      have hsingle := singleEscape_eq_some_iff.mpr hc
      have hne : c ≠ 0x0D := by
        rintro rfl
        cases hsingle
      simp only [takeEscapeSequenceOrLineContinuation, nextChar_of_rest hrest, hsingle]
      exact ⟨_, _, rfl, Cursor.rest_advance_of_ne hrest hne⟩
  | nonEscape hc =>
      obtain ⟨hsingle, hdigit, hx, hu, hline⟩ := hc
      have hnone : singleEscape v = none :=
        Option.eq_none_iff_forall_ne_some.mpr fun w hw =>
          hsingle w (singleEscape_eq_some_iff.mp hw)
      rw [IsDecimalDigit] at hdigit
      have hzero : v ≠ 0x30 := by omega
      have hnine : ¬ (v = 0x38 ∨ v = 0x39) := by omega
      have hoctal : ¬ (0x30 ≤ v ∧ v ≤ 0x37) := by omega
      have hterminator : isLineTerminator v = false := by
        rw [← Bool.not_eq_true, isLineTerminator_iff]
        exact hline
      have hne : v ≠ 0x0D := fun heq => hline (heq ▸ by decide)
      simp only [takeEscapeSequenceOrLineContinuation, nextChar_of_rest hrest, hnone, hzero,
        false_and, if_false, hx, hu, hnine, hoctal, hterminator, Bool.false_eq_true]
      exact ⟨_, _, rfl, Cursor.rest_advance_of_ne hrest hne⟩
  | nul hnext =>
      have hadvance := Cursor.rest_advance_of_ne hrest (by decide)
      have hall : cursor.advance.peekChar.all
          (fun c => !decide (0x30 ≤ c ∧ c ≤ 0x39)) = true := by
        rw [Cursor.peekChar, hadvance, Option.all_eq_true]
        intro d hd
        rw [Bool.not_eq_true', decide_eq_false_iff_not]
        exact hnext d hd
      simp only [takeEscapeSequenceOrLineContinuation, nextChar_of_rest hrest, singleEscape, hall,
        true_and, if_true]
      exact ⟨_, _, rfl, hadvance⟩
  | hex hnumeral hlen =>
      have hadvance := Cursor.rest_advance_of_ne hrest (by decide)
      have htake := (@takeFixedHex_iff _ _ _ "invalid Hexadecimal escape sequence" startPos _
        (by decide)).mpr ⟨_, _, hadvance, hlen, hnumeral⟩
      simp only [takeEscapeSequenceOrLineContinuation, nextChar_of_rest hrest, singleEscape,
        Nat.reduceEqDiff, false_and, if_false, if_true]
      exact ⟨_, delivers_map_other.mpr ⟨rfl, _, rfl, htake⟩⟩
  | hex4 hnumeral hlen =>
      have hadvance := Cursor.rest_advance_of_ne hrest (by decide)
      have htake := (@takeUnicodeEscapeSequence_iff _ _ _ startPos).mpr
        ⟨signed, by rw [hadvance]; exact IsSharedEscape.hex4 hnumeral hlen⟩
      simp only [takeEscapeSequenceOrLineContinuation, nextChar_of_rest hrest, singleEscape,
        Nat.reduceEqDiff, false_and, if_false, if_true]
      exact ⟨_, delivers_map_other.mpr ⟨rfl, _, rfl, htake⟩⟩
  | codePoint hnumeral hle =>
      have hadvance := Cursor.rest_advance_of_ne hrest (by decide)
      have htake := (@takeUnicodeEscapeSequence_iff _ _ _ startPos).mpr
        ⟨signed, by rw [hadvance]; exact IsSharedEscape.codePoint hnumeral hle⟩
      simp only [takeEscapeSequenceOrLineContinuation, nextChar_of_rest hrest, singleEscape,
        Nat.reduceEqDiff, false_and, if_false, if_true]
      exact ⟨_, delivers_map_other.mpr ⟨rfl, _, rfl, htake⟩⟩

/-- A legacy octal escape sequence that begins with an octal digit is read outside of strict mode.
-/
theorem takeEscapeSequenceOrLineContinuation_octal {c : ℕ} {after : List ℕ}
    (hrest : cursor.rest = c :: after) (hc : IsOctalDigit c)
    (hzero : c = 0x30 → ∃ d t, after = d :: t ∧ IsDecimalDigit d)
    (h : IsLegacyEscape (c :: after) rest v) :
    ∃ flags, Delivers (takeEscapeSequenceOrLineContinuation cursor startPos false false)
      (some v, flags) rest := by
  have hadvance := rest_advance_of_octal hrest hc
  rw [IsOctalDigit] at hc
  have hnone : singleEscape c = none := by
    rw [Option.eq_none_iff_forall_ne_some]
    intro w hw
    exact singleEscape_not_first (singleEscape_eq_some_iff.mp hw)
      (.inl ⟨hc.1, hc.2.trans (by decide)⟩)
  have hnotNul : ¬ (c = 0x30 ∧ cursor.advance.peekChar.all
      (fun c => !decide (0x30 ≤ c ∧ c ≤ 0x39)) = true) := by
    rintro ⟨heq, hall⟩
    obtain ⟨d, t, ht, hd⟩ := hzero heq
    rw [Cursor.peekChar, hadvance, ht, List.head?_cons, Option.all_some, Bool.not_eq_true',
      decide_eq_false_iff_not] at hall
    exact hall hd
  have hx : c ≠ 0x78 := by omega
  have hu : c ≠ 0x75 := by omega
  have hnine : ¬ (c = 0x38 ∨ c = 0x39) := by omega
  rw [← hadvance] at h
  obtain ⟨cursor', htake, hrest'⟩ := takeLegacyOctalEscapeSequence_complete hc h
  simp only [takeEscapeSequenceOrLineContinuation, nextChar_of_rest hrest, hnone, hnotNul, if_false,
    hx, hu, hnine, hc, and_self, if_true, Bool.false_eq_true, htake]
  exact ⟨_, _, rfl, hrest'⟩

/-- Each legacy escape sequence is read outside of strict mode. -/
theorem takeEscapeSequenceOrLineContinuation_legacy (h : IsLegacyEscape cursor.rest rest v) :
    ∃ flags, Delivers (takeEscapeSequenceOrLineContinuation cursor startPos false false)
      (some v, flags) rest := by
  generalize hrest : cursor.rest = text at h
  -- a `0` with an octal digit behind it is no escape of its own
  have hzero {c d : ℕ} {t : List ℕ} (hc : IsDigit 8 c d) :
      ∃ e u, c :: t = e :: u ∧ IsDecimalDigit e := by
    obtain ⟨hoctal, -⟩ := isDigit_eight_iff.mp hc
    exact ⟨c, t, rfl, hoctal.1, hoctal.2.trans (by decide)⟩
  cases h with
  | nul hnext =>
      refine takeEscapeSequenceOrLineContinuation_octal hrest (by decide) (fun _ => ?_) (.nul hnext)
      refine ⟨_, _, rfl, ?_⟩
      rw [IsDecimalDigit]
      omega
  | nonZero hc hd hnext =>
      obtain ⟨hoctal, heq⟩ := isDigit_eight_iff.mp hc
      refine takeEscapeSequenceOrLineContinuation_octal hrest hoctal (fun h => ?_)
        (.nonZero hc hd hnext)
      omega
  | zeroToThree hc hd hc' hnext =>
      exact takeEscapeSequenceOrLineContinuation_octal hrest (isDigit_eight_iff.mp hc).1
        (fun _ => hzero hc') (.zeroToThree hc hd hc' hnext)
  | fourToSeven hc hd hc' =>
      exact takeEscapeSequenceOrLineContinuation_octal hrest (isDigit_eight_iff.mp hc).1
        (fun _ => hzero hc') (.fourToSeven hc hd hc')
  | three hc hd hc' hc'' =>
      exact takeEscapeSequenceOrLineContinuation_octal hrest (isDigit_eight_iff.mp hc).1
        (fun _ => hzero hc') (.three hc hd hc' hc'')
  | nonOctalDecimal hc =>
      have hne : v ≠ 0x0D := by omega
      have hadvance := Cursor.rest_advance_of_ne hrest hne
      rcases hc with rfl | rfl
      · simp only [takeEscapeSequenceOrLineContinuation, nextChar_of_rest hrest, singleEscape,
          Nat.reduceEqDiff, false_and, if_false, true_or, if_true, Bool.false_eq_true]
        exact ⟨_, _, rfl, hadvance⟩
      · simp only [takeEscapeSequenceOrLineContinuation, nextChar_of_rest hrest, singleEscape,
          Nat.reduceEqDiff, false_and, if_false, or_true, if_true, Bool.false_eq_true]
        exact ⟨_, _, rfl, hadvance⟩

/-- A line continuation is read in each mode, and stands for nothing. -/
theorem takeEscapeSequenceOrLineContinuation_lineContinuation {unit : UInt16}
    (h : IsLineTerminatorSequence cursor.rest rest unit) :
    ∃ flags, Delivers (takeEscapeSequenceOrLineContinuation cursor startPos strict false)
      (none, flags) rest := by
  cases hrest : cursor.rest with
  | nil =>
      rw [hrest] at h
      cases h
  | cons c after =>
      rw [hrest] at h
      obtain ⟨hterminator, hbehind⟩ := behind_of_isLineTerminatorSequence h
      have hadvance : cursor.advance.rest = rest := by rw [Cursor.rest_advance hrest, hbehind]
      have hnone : singleEscape c = none := by
        rcases isLineTerminator_iff.mp hterminator with rfl | rfl | rfl | rfl <;> rfl
      have hline := isLineTerminator_iff.mp hterminator
      rw [IsLineTerminator] at hline
      have hzero : c ≠ 0x30 := by omega
      have hx : c ≠ 0x78 := by omega
      have hu : c ≠ 0x75 := by omega
      have hnine : ¬ (c = 0x38 ∨ c = 0x39) := by omega
      have hoctal : ¬ (0x30 ≤ c ∧ c ≤ 0x37) := by omega
      simp only [takeEscapeSequenceOrLineContinuation, nextChar_of_rest hrest, hnone, hzero,
        false_and, if_false, hx, hu, hnine, hoctal, hterminator, if_true]
      exact ⟨_, _, rfl, hadvance⟩

/-- **What is read behind a backslash.** -/
theorem takeEscapeSequenceOrLineContinuation_iff :
    (∃ flags, Delivers (takeEscapeSequenceOrLineContinuation cursor startPos strict false)
      (value, flags) rest) ↔ ∃ signed, IsEscaped strict signed cursor.rest rest value := by
  constructor
  · rintro ⟨flags, h⟩
    exact takeEscapeSequenceOrLineContinuation_sound h
  · rintro ⟨signed, h⟩
    cases h with
    | shared h => exact takeEscapeSequenceOrLineContinuation_shared h
    | legacy hstrict h =>
        subst hstrict
        exact takeEscapeSequenceOrLineContinuation_legacy h
    | lineContinuation h => exact takeEscapeSequenceOrLineContinuation_lineContinuation h

/-- An escape sequence of the grammar does not make its input longer. -/
theorem IsEscaped.length_le {input : List ℕ} (h : IsEscaped strict signed input rest value) :
    rest.length ≤ input.length := by
  cases h with
  | shared h => exact Nat.le_of_lt h.length_lt
  | legacy _ h => cases h <;> simp only [List.length_cons] <;> omega
  | lineContinuation h => cases h <;> simp only [List.length_cons] <;> omega

/-- What was read behind a backslash does not make the input longer. -/
theorem length_takeEscapeSequenceOrLineContinuation {flags : EscapeSequence} {cursor' : Cursor}
    (h : takeEscapeSequenceOrLineContinuation cursor startPos strict false =
      .ok ((value, flags), cursor')) : cursor'.rest.length ≤ cursor.rest.length := by
  obtain ⟨signed, hescaped⟩ := takeEscapeSequenceOrLineContinuation_sound ⟨cursor', h, rfl⟩
  exact hescaped.length_le

/-- Reading a code point makes the input shorter. -/
theorem length_nextChar_lt {c : ℕ} {cursor' : Cursor} (h : cursor.nextChar = (some c, cursor')) :
    cursor'.rest.length < cursor.rest.length := by
  obtain ⟨hpeek, rfl⟩ := Prod.mk.inj h
  exact Cursor.length_advance_lt hpeek

/-! ### Plus signs -/

/-- The text starts with an escape that has a plus sign in front of its digits. -/
def IsSignedStart (input : List ℕ) : Prop :=
  ∃ t, input = 0x78 :: 0x2B :: t ∨ input = 0x75 :: 0x2B :: t ∨ input = 0x75 :: 0x7B :: 0x2B :: t

/-- The first character of a numeral tells whether it has a plus sign. -/
theorem IsHexNumeral.signed_iff {c : ℕ} {t input : List ℕ} (h : IsHexNumeral signed s v)
    (hinput : s ++ input = c :: t) : c = 0x2B ↔ signed = true := by
  cases h with
  | digits hne hdigits =>
      cases hdigits with
      | nil => exact absurd rfl hne
      | cons hd _ =>
          obtain ⟨rfl, -⟩ := List.cons.inj hinput
          refine iff_of_false ?_ Bool.false_ne_true
          rintro rfl
          rw [IsDigit] at hd
          omega
  | plus _ _ =>
      obtain ⟨rfl, -⟩ := List.cons.inj hinput
      exact iff_of_true rfl rfl

/-- The first character of an escape of sloppy mode. -/
theorem IsLegacyEscape.first {c : ℕ} {t : List ℕ} (h : IsLegacyEscape (c :: t) rest v) :
    IsDecimalDigit c := by
  have hoctal {c d : ℕ} (hc : IsDigit 8 c d) : IsDecimalDigit c := by
    obtain ⟨hc, -⟩ := isDigit_eight_iff.mp hc
    exact ⟨hc.1, hc.2.trans (by decide)⟩
  generalize htext : c :: t = text at h
  cases h with
  | nul _ =>
      cases htext
      decide
  | nonZero hc _ _ | zeroToThree hc _ _ _ | fourToSeven hc _ _ | three hc _ _ _ =>
      cases htext
      exact hoctal hc
  | nonOctalDecimal hc =>
      cases htext
      rw [IsDecimalDigit]
      omega

/-- A shared escape sequence has a sign in its braces exactly if it begins like this. -/
theorem IsSharedEscape.isSignedStart_iff {input : List ℕ}
    (h : IsSharedEscape signed input rest v) : IsSignedStart input ↔ signed = true := by
  -- an escape of another kind does not start in this way
  have hother {c : ℕ} {t : List ℕ} (hc : c ≠ 0x78 ∧ c ≠ 0x75) :
      IsSignedStart (c :: t) ↔ false = true := by
    refine iff_of_false ?_ Bool.false_ne_true
    rintro ⟨u, hu | hu | hu⟩
    · exact hc.1 (List.cons.inj hu).1
    · exact hc.2 (List.cons.inj hu).1
    · exact hc.2 (List.cons.inj hu).1
  cases h with
  | single hc =>
      have hnot := singleEscape_not_first hc
      rw [not_or, not_or] at hnot
      exact hother hnot.2
  | nonEscape hc => exact hother ⟨hc.2.2.1, hc.2.2.2.1⟩
  | nul _ => exact hother (by decide)
  | @hex _ s _ _ hnumeral _ =>
      constructor
      · rintro ⟨t, ht | ht | ht⟩
        · exact (hnumeral.signed_iff (List.cons.inj ht).2).mp rfl
        · exact absurd (List.cons.inj ht).1 (by decide)
        · exact absurd (List.cons.inj ht).1 (by decide)
      · rintro rfl
        cases hnumeral with
        | plus _ _ => exact ⟨_, .inl rfl⟩
  | hex4 hnumeral _ =>
      constructor
      · rintro ⟨t, ht | ht | ht⟩
        · exact absurd (List.cons.inj ht).1 (by decide)
        · exact (hnumeral.signed_iff (List.cons.inj ht).2).mp rfl
        · exact absurd (List.cons.inj ht).2 (hnumeral.append_ne _)
      · rintro rfl
        cases hnumeral with
        | plus _ _ => exact ⟨_, .inr (.inl rfl)⟩
  | codePoint hnumeral _ =>
      constructor
      · rintro ⟨t, ht | ht | ht⟩
        · exact absurd (List.cons.inj ht).1 (by decide)
        · exact absurd (List.cons.inj (List.cons.inj ht).2).1 (by decide)
        · exact (hnumeral.signed_iff (List.cons.inj (List.cons.inj ht).2).2).mp rfl
      · rintro rfl
        cases hnumeral with
        | plus _ _ => exact ⟨_, .inr (.inr rfl)⟩

/-- An escape sequence has a sign in its braces exactly if it begins like this. -/
theorem IsEscaped.isSignedStart_iff {input : List ℕ}
    (h : IsEscaped strict signed input rest value) : IsSignedStart input ↔ signed = true := by
  cases h with
  | shared h => exact h.isSignedStart_iff
  | legacy _ h =>
      refine iff_of_false ?_ Bool.false_ne_true
      rintro ⟨t, rfl | rfl | rfl⟩
      · exact absurd h.first (by decide)
      · exact absurd h.first (by decide)
      · exact absurd h.first (by decide)
  | lineContinuation h =>
      refine iff_of_false ?_ Bool.false_ne_true
      rintro ⟨t, rfl | rfl | rfl⟩ <;> cases h

/-- What stands behind a backslash is unique. -/
theorem IsEscaped.unique {input rest' : List ℕ} {value' : Option ℕ} {signed' : Bool}
    (h : IsEscaped strict signed input rest value)
    (h' : IsEscaped strict signed' input rest' value') :
    signed = signed' ∧ rest = rest' ∧ value = value' := by
  have hsigned : signed = signed' := by
    rw [Bool.eq_iff_iff, ← h.isSignedStart_iff, ← h'.isSignedStart_iff]
  have hread {signed : Bool} {rest : List ℕ} {value : Option ℕ}
      (h : IsEscaped strict signed input rest value) :=
    (@takeEscapeSequenceOrLineContinuation_iff _ ⟨input, ⟨1, 1⟩, strict⟩ ⟨1, 1⟩ _ _).mpr ⟨signed, h⟩
  obtain ⟨flags, cursor, htake, hrest⟩ := hread h
  obtain ⟨flags', cursor', htake', hrest'⟩ := hread h'
  rw [htake, Except.ok.injEq, Prod.mk.injEq, Prod.mk.injEq] at htake'
  obtain ⟨⟨hvalue, -⟩, hcursor⟩ := htake'
  exact ⟨hsigned, by rw [← hrest, ← hrest', hcursor], hvalue⟩

end BoaLigero.Lexer
