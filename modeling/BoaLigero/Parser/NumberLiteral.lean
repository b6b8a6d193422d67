import BoaLigero.Parser.Cursor
import BoaLigero.Parser.NumericGrammar
import BoaLigero.Parser.StringEscape
import BoaLigero.String.DecimalLiteral
import BoaLigero.Util.DoubleOrder

/-!
# The Lexer of Numeric Literals

The lexer of numbers (`lexer/number.rs`), behind their first character: a prefix or a leading zero,
digits, and then a suffix, a fraction or an exponent. The characters are collected in a buffer, from
which the number is read in the end by the standard library, by `fast_float2` or by `num_bigint`.

What is taken from the text is described with the digits of the grammar: single separators stand
between digits where they are allowed, and what follows is no digit.

## Main results

* `takeInteger_iff` — the digits that are taken, up to another character.
* `takeSignedInteger_iff` — the digits of an exponent that are taken, with their sign.
-/

namespace BoaLigero.Lexer

open Digits

/-! ### The source -/

/-- How a lexer ends without a token: with an error, or with a panic. -/
inductive Failure where
  | error (error : Error)
  | panic (message : String)

/-- An operation that cannot panic, as one that can (the operator `?`). -/
def fallible {α : Type} (result : Except Error α) : Except Failure α := result.mapError .error

/-- `Numeric`, the value of a token. -/
inductive Numeric where
  | rational (x : F64)
  | integer (n : Int32)
  | bigInt (n : ℤ)

/-- `NumericKind`. -/
inductive NumericKind where
  | rational
  | integer (base : ℕ)
  | bigInt (base : ℕ)
  deriving DecidableEq

/-- The base of the number kind (`base`). -/
def NumericKind.base : NumericKind → ℕ
  | .rational => 10
  | .integer base | .bigInt base => base

/-- The kind as a `BigInt` (`to_bigint`). -/
def NumericKind.toBigint : NumericKind → Except Failure NumericKind
  | .rational => .error (.panic "can not convert rational number to BigInt")
  | .integer base | .bigInt base => .ok (.bigInt base)

/-- `char::is_digit`. -/
def isDigit (radix : ℕ) (c : Char) : Bool := (toDigit radix c).isSome

/-- A code point as a byte of the buffer (`as u8`). All that are pushed are ASCII, so that the bytes
are the characters of a string (`from_utf8_unchecked`). -/
def byteOf (c : ℕ) : Char := Char.ofNat (c % 256)

/-- The next character, which was peeked before (`next_char` with `expect`). -/
def expectNext (message : String) (cursor : Cursor) : Except Failure (ℕ × Cursor) :=
  match cursor.nextChar with
  | (some c, cursor) => .ok (c, cursor)
  | (none, _) => .error (.panic message)

/-- The loop of `take_integer`. -/
def takeIntegerLoop (kind : NumericKind) (separatorAllowed : Bool) (buf : List Char)
    (prevIsUnderscore : Bool) (pos : Position) (cursor : Cursor) :
    Except Error (List Char × Cursor) :=
  match _h : cursor.peekChar with
  | some c =>
      if cursor.nextIsAsciiPred fun ch => isDigit kind.base ch || ch == '_' then
        let pos := cursor.pos
        let cursor' := cursor.advance
        if c = 0x5F then
          if separatorAllowed then
            if prevIsUnderscore then
              .error
                (.syntaxError "only one underscore is allowed as numeric separator" cursor'.pos)
            else takeIntegerLoop kind separatorAllowed buf true pos cursor'
          else .error (.syntaxError "separator is not allowed" pos)
        else if (charFromU32 c).any (isDigit kind.base) then
          takeIntegerLoop kind separatorAllowed (buf ++ [byteOf c]) false pos cursor'
        else takeIntegerLoop kind separatorAllowed buf prevIsUnderscore pos cursor'
      else if prevIsUnderscore then
        .error (.syntaxError "underscores are not allowed at the end of numeric literals" pos)
      else .ok (buf, cursor)
  | none =>
      if prevIsUnderscore then
        .error (.syntaxError "underscores are not allowed at the end of numeric literals" pos)
      else .ok (buf, cursor)
termination_by cursor.rest.length
decreasing_by all_goals exact Cursor.length_advance_lt _h

/-- Takes digits, and separators where they are allowed (`take_integer`). -/
def takeInteger (buf : List Char) (cursor : Cursor) (kind : NumericKind) (separatorAllowed : Bool) :
    Except Error (List Char × Cursor) :=
  takeIntegerLoop kind separatorAllowed buf false cursor.pos cursor

/-- Takes the digits of an exponent with their sign (`take_signed_integer`). -/
def takeSignedInteger (buf : List Char) (cursor : Cursor) (kind : NumericKind) :
    Except Error (List Char × Cursor) :=
  match cursor.nextChar with
  | (some c, cursor) =>
      if c = 0x2B then
        if cursor.nextIsAsciiPred (isDigit kind.base) then
          takeInteger (buf ++ ['+']) cursor kind true
        else .error (.syntaxError "No digit found after + symbol" cursor.pos)
      else if c = 0x2D then
        if cursor.nextIsAsciiPred (isDigit kind.base) then
          takeInteger (buf ++ ['-']) cursor kind true
        else .error (.syntaxError "No digit found after - symbol" cursor.pos)
      else if (charFromU32 c).any fun ch => decide (ch.toNat ≤ 0x7F) && isDigit kind.base ch then
        takeInteger (buf ++ [byteOf c]) cursor kind true
      else .error (.syntaxError "When lexing exponential value found unexpected char" cursor.pos)
  | (none, cursor) => .error (.syntaxError "Abrupt end: No exponential value found" cursor.pos)

/-- `check_after_numeric_literal`. -/
def checkAfterNumericLiteral (cursor : Cursor) : Except Error Unit :=
  if cursor.nextIsAsciiPred fun ch => ch.isAlphanum || ch == '$' || ch == '_' then
    .error (.syntaxError
      "a numeric literal must not be followed by an alphanumeric, $ or _ characters" cursor.pos)
  else .ok ()

/-- What the beginning of a literal leads to: a number, or digits that follow, with the buffer, the
kind, and whether there is a leading zero. -/
inductive Start where
  | finished (numeric : Numeric)
  | digits (buf : List Char) (kind : NumericKind) (legacyOctal : Bool)

/-- The arms of `x`, `o` and `b` behind a zero. -/
def lexBase (base : ℕ) (vanished message : String) (cursor : Cursor) :
    Except Failure (Start × Cursor) := do
  -- Remove the initial '0' from buffer.
  let (_, cursor) ← expectNext vanished cursor
  if cursor.nextIsAsciiPred (isDigit base) then
    return (.digits [] (.integer base) false, cursor)
  else fallible (.error (.syntaxError message cursor.pos))

/-- The arm of `n` behind a zero. -/
def lexZeroBigInt (cursor : Cursor) : Except Failure (Start × Cursor) := do
  let (_, cursor) ← expectNext "n character vanished" cursor
  return (.finished (.bigInt 0), cursor)

/-- The arm of all other characters behind a zero. -/
def lexLegacy (byte : ℕ) (startPos : Position) (cursor : Cursor) :
    Except Failure (Start × Cursor) :=
  if (charFromU32 byte).any (isDigit 8) then
    -- LegacyOctalIntegerLiteral, or a number with leading 0s.
    if cursor.strict then
      fallible (.error
        (.syntaxError "implicit octal literals are not allowed in strict mode" startPos))
    else do
      let (c, cursor) ← expectNext "'0' character vanished" cursor
      let (buf, cursor) ← fallible (takeInteger [byteOf c] cursor (.integer 8) false)
      if cursor.nextIsAsciiPred fun c => isDigit 10 c || c == '_' then
        return (.digits buf (.integer 10) true, cursor)
      else return (.digits buf (.integer 8) true, cursor)
  else if (charFromU32 byte).any (isDigit 10) && cursor.strict then
    fallible (.error (.syntaxError "leading 0's are not allowed in strict mode" startPos))
  else .ok (.digits ['0'] (.integer 10) true, cursor)

/-- The beginning of a literal. -/
def lexStart (init : ℕ) (startPos : Position) (cursor : Cursor) : Except Failure (Start × Cursor) :=
  if init = 0x30 then
    match cursor.peekChar with
    | some ch =>
        if ch = 0x78 ∨ ch = 0x58 then
          lexBase 16 "x or X character vanished"
            "expected hexadecimal digit after number base prefix" cursor
        else if ch = 0x6F ∨ ch = 0x4F then
          lexBase 8 "o or O character vanished" "expected octal digit after number base prefix"
            cursor
        else if ch = 0x62 ∨ ch = 0x42 then
          lexBase 2 "b or B character vanished" "expected binary digit after number base prefix"
            cursor
        else if ch = 0x6E then lexZeroBigInt cursor
        else lexLegacy ch startPos cursor
    | none => .ok (.finished (.integer 0), cursor)
  else .ok (.digits [byteOf init] (.integer 10) false, cursor)

/-- The exponent of a literal, in front of its indicator. -/
def lexExponent (vanished : String) (buf : List Char) (cursor : Cursor) :
    Except Failure ((List Char × NumericKind) × Cursor) := do
  let (_, cursor) ← expectNext vanished cursor
  let (buf, cursor) ← fallible (takeSignedInteger (buf ++ ['E']) cursor .rational)
  return ((buf, .rational), cursor)

/-- The fraction of a literal, behind its point. -/
def lexFraction (buf : List Char) (cursor : Cursor) :
    Except Failure ((List Char × NumericKind) × Cursor) :=
  if cursor.peekChar = some 0x5F then
    fallible (.error (.syntaxError "numeric separator not allowed after '.'" cursor.pos))
  else do
    let (buf, cursor) ← fallible (takeInteger buf cursor .rational true)
    if cursor.peekChar = some 0x65 ∨ cursor.peekChar = some 0x45 then
      lexExponent "e or E token vanished" buf cursor
    else return ((buf, .rational), cursor)

/-- What follows the digits of an integer: a suffix, a fraction or an exponent. -/
def lexSuffix (buf : List Char) (kind : NumericKind) (legacyOctal : Bool) (cursor : Cursor) :
    Except Failure ((List Char × NumericKind) × Cursor) :=
  match cursor.peekChar with
  | some next =>
      if next = 0x6E then
        if legacyOctal then
          fallible (.error
            (.syntaxError "'n' suffix not allowed in octal representation" cursor.pos))
        else do
          let (_, cursor) ← expectNext "n character vanished" cursor
          let kind ← kind.toBigint
          return ((buf, kind), cursor)
      else if next = 0x2E then
        -- Only base 10 numbers can have a decimal separator.
        if kind.base = 10 then do
          let (_, cursor) ← expectNext "'.' token vanished" cursor
          lexFraction (buf ++ ['.']) cursor
        else return ((buf, kind), cursor)
      else if next = 0x65 ∨ next = 0x45 then lexExponent "e or E character vanished" buf cursor
      else return ((buf, kind), cursor)
  | none => return ((buf, kind), cursor)

/-- The digits of a literal and what follows them, up to its end. -/
def lexDigits (init : ℕ) (buf : List Char) (kind : NumericKind) (legacyOctal : Bool)
    (cursor : Cursor) : Except Failure ((List Char × NumericKind) × Cursor) :=
  -- behind a point at the beginning, the base is ten
  if init = 0x2E then lexFraction buf cursor
  else do
    let (buf, cursor) ← fallible (takeInteger buf cursor kind !legacyOctal)
    lexSuffix buf kind legacyOctal cursor

/-- `i32::from_str_radix`: an optional sign and digits, whose number must fit. -/
def i32FromStrRadix (src : List Char) (radix : ℕ) : Option Int32 :=
  let negative := src.head? = some '-'
  let s := if negative ∨ src.head? = some '+' then src.tail else src
  if s = [] then none
  else
    (s.mapM (toDigit radix)).bind fun digits =>
      let n : ℤ := if negative then -ofDigits radix digits else ofDigits radix digits
      if -2 ^ 31 ≤ n ∧ n < 2 ^ 31 then some (.ofInt n) else none

section Convert

variable (parseFloat : List Char → Option F64) (parseBytes : ℕ → List Char → Option ℤ)
  (toF64 : ℤ → Option F64)

/-- The number in the buffer. -/
def convert (numStr : List Char) : NumericKind → Except Failure Numeric
  | .bigInt base =>
      match parseBytes base numStr with
      | some n => .ok (.bigInt n)
      | none => .error (.panic "Could not convert to BigInt")
  | .rational =>
      match parseFloat numStr with
      | some val =>
          let intVal := val.toInt32
          if (F64.ofInt32 intVal).beq val then .ok (.integer intVal) else .ok (.rational val)
      | none => .error (.panic "Failed to parse float after checks")
  | .integer base =>
      match i32FromStrRadix numStr base with
      | some n => .ok (.integer n)
      | none =>
          match parseBytes base numStr with
          | some num => .ok (.rational ((toF64 num).getD (F64.infinity false)))
          | none => .error (.panic "Failed to parse integer after checks")

/-- Lexes a numeric literal behind its first character (`lex`); `parseFloat` is
`fast_float2::parse`, `parseBytes` is `BigInt::parse_bytes` with its radix, and `toF64` is
`BigInt::to_f64`. -/
def lexNumberLiteral (init : ℕ) (startPos : Position) (cursor : Cursor) :
    Except Failure (Numeric × Cursor) := do
  let (start, cursor) ← lexStart init startPos cursor
  match start with
  | .finished numeric => return (numeric, cursor)
  | .digits buf kind legacyOctal =>
      let ((buf, kind), cursor) ← lexDigits init buf kind legacyOctal cursor
      fallible (checkAfterNumericLiteral cursor)
      let num ← convert parseFloat parseBytes toF64 buf kind
      return (num, cursor)

end Convert

/-! ### What is delivered -/

section Delivery

variable {ε α β : Type} {value : α} {rest : List ℕ}

/-- A sequence delivers what its second part does behind the first one. -/
theorem delivers_bind {x : Except ε (β × Cursor)} {f : β × Cursor → Except ε (α × Cursor)} :
    Delivers (x >>= f) value rest ↔
      ∃ b cursor, x = .ok (b, cursor) ∧ Delivers (f (b, cursor)) value rest := by
  cases x with
  | error e => exact iff_of_false not_delivers_error (by simp)
  | ok r =>
      constructor
      · exact fun h => ⟨r.1, r.2, rfl, h⟩
      · rintro ⟨b, cursor, hok, h⟩
        cases hok
        exact h

/-- What cannot panic delivers the same as what can. -/
theorem fallible_eq_ok_iff {x : Except Error α} {a : α} : fallible x = .ok a ↔ x = .ok a := by
  cases x <;> simp [fallible, Except.mapError]

end Delivery

/-! ### Digits -/

variable {radix c d base : ℕ} {s t e digits rest rest' : List ℕ} {buf buf' : List Char}
  {kind kind' : NumericKind} {cursor : Cursor} {pos startPos : Position}
  {separatorAllowed legacyOctal : Bool} {q : ℚ} {exponent : ℤ} {value : NumericValue}

/-- A digit or a separator. -/
def IsDigitOrSeparator (radix c : ℕ) : Prop := (∃ d, IsDigit radix c d) ∨ c = 0x5F

/-- The characters that are pushed for a text. -/
def chars (text : List ℕ) : List Char := (text.filter (· ≠ 0x5F)).map byteOf

/-- The characters of two texts come one behind the other. -/
@[simp] theorem chars_append (s t : List ℕ) : chars (s ++ t) = chars s ++ chars t := by
  simp [chars]

/-- Nothing is pushed for no text. -/
@[simp] theorem chars_nil : chars [] = [] := rfl

/-- A separator is not pushed. -/
theorem chars_separator (s : List ℕ) : chars (0x5F :: s) = chars s := rfl

/-- All other characters are. -/
theorem chars_cons (h : c ≠ 0x5F) (s : List ℕ) : chars (c :: s) = byteOf c :: chars s := by
  simp [chars, h]

/-- A digit is none of the other characters of numbers. -/
theorem IsDigit.lt_ascii (h : IsDigit radix c d) : c ≤ 0x7F ∧ c ≠ 0x5F ∧ c ≠ 0x0D := by
  rw [IsDigit] at h
  omega

/-- The digits of the standard library are those of the grammar. -/
theorem isDigit_ofNat (hc : c ≤ 0x7F) :
    isDigit radix (Char.ofNat c) = true ↔ ∃ d, IsDigit radix c d := by
  rw [isDigit, Option.isSome_iff_exists]
  refine exists_congr fun d => ?_
  rw [toDigit_eq_some_iff, toNat_charOfNat (.inl (by omega)), IsDigit]

/-- Digits of the standard library, where the code point is that of a character. -/
theorem any_isDigit_iff :
    (charFromU32 c).any (isDigit radix) = true ↔ ∃ d, IsDigit radix c d := by
  rw [Option.any_eq_true]
  constructor
  · rintro ⟨ch, hch, h⟩
    rw [isDigit, Option.isSome_iff_exists] at h
    exact h.imp fun d hd => (isDigit_iff_toDigit hch).mpr hd
  · rintro ⟨d, hd⟩
    obtain ⟨ch, hch, -⟩ := charFromU32_of_lt (n := c) (by have := hd.lt_ascii.1; omega)
    refine ⟨ch, hch, ?_⟩
    rw [isDigit, Option.isSome_iff_exists]
    exact ⟨d, (isDigit_iff_toDigit hch).mp hd⟩

/-- All digits of the standard library are ASCII. -/
theorem any_isAscii_isDigit_iff :
    (charFromU32 c).any (fun ch => decide (ch.toNat ≤ 0x7F) && isDigit radix ch) = true ↔
      ∃ d, IsDigit radix c d := by
  rw [← any_isDigit_iff, Option.any_eq_true, Option.any_eq_true]
  refine exists_congr fun ch => and_congr_right fun hch => ?_
  rw [Bool.and_eq_true, decide_eq_true_iff, and_iff_right_iff_imp]
  intro h
  rw [isDigit, Option.isSome_iff_exists] at h
  obtain ⟨d, hd⟩ := h
  rw [toNat_of_charFromU32 hch]
  exact ((isDigit_iff_toDigit hch).mpr hd).lt_ascii.1

/-- A digit is pushed as its character. -/
theorem IsDigit.toDigit_byteOf (h : IsDigit radix c d) : toDigit radix (byteOf c) = some d := by
  have hc := h.lt_ascii.1
  rw [byteOf, Nat.mod_eq_of_lt (by omega), toDigit_eq_some_iff, toNat_charOfNat (.inl (by omega))]
  exact h

/-- The characters of digits are digits. -/
theorem SeparatedTail.isDigits (h : SeparatedTail radix s digits) :
    IsDigits radix (chars s) digits := by
  induction h with
  | nil => exact .nil
  | digit hd _ ih =>
      rw [chars_cons hd.lt_ascii.2.1]
      exact .cons hd.toDigit_byteOf ih
  | separator hd _ ih =>
      rw [chars_separator, chars_cons hd.lt_ascii.2.1]
      exact .cons hd.toDigit_byteOf ih

/-- Digits with no separators between them are a tail. -/
theorem separatedTail_of_areDigits (h : AreDigits radix s digits) :
    SeparatedTail radix s digits ∧ 0x5F ∉ s := by
  induction h with
  | nil => exact ⟨.nil, List.not_mem_nil⟩
  | cons hd _ ih =>
      refine ⟨.digit hd ih.1, ?_⟩
      rw [List.mem_cons, not_or]
      exact ⟨hd.lt_ascii.2.1.symm, ih.2⟩

/-- A tail without separators is digits. -/
theorem SeparatedTail.areDigits (h : SeparatedTail radix s digits) (hnot : 0x5F ∉ s) :
    AreDigits radix s digits := by
  induction h with
  | nil => exact .nil
  | digit hd _ ih => exact .cons hd (ih fun hmem => hnot (List.mem_cons_of_mem _ hmem))
  | separator _ _ _ => exact absurd List.mem_cons_self hnot

/-! ### What comes next -/

/-- The character that is peeked. -/
theorem Cursor.peekChar_of_rest (h : cursor.rest = c :: rest) : cursor.peekChar = some c := by
  rw [Cursor.peekChar, h, List.head?_cons]

/-- The next character is a digit, or one of others. -/
theorem nextIsAsciiPred_iff {pred : Char → Bool} {p : ℕ → Prop}
    (hpred : ∀ c ≤ 0x7F, pred (Char.ofNat c) = true ↔ p c) (hp : ∀ c, p c → c ≤ 0x7F) :
    cursor.nextIsAsciiPred pred = false ↔ NextNot p cursor.rest := by
  rw [Cursor.nextIsAsciiPred, Cursor.peekChar, NextNot]
  cases cursor.rest.head? with
  | none => simp
  | some c =>
      simp only [Option.mem_def, Option.some.injEq, forall_eq']
      rw [← Bool.not_eq_true, not_iff_not, Bool.and_eq_true, decide_eq_true_iff]
      exact ⟨fun h => (hpred c h.1).mp h.2, fun h => ⟨hp c h, (hpred c (hp c h)).mpr h⟩⟩

/-- Whether a digit comes next. -/
theorem nextIsDigit_iff : cursor.nextIsAsciiPred (isDigit radix) = false ↔
    NextNot (fun c => ∃ d, IsDigit radix c d) cursor.rest :=
  nextIsAsciiPred_iff (fun _ hc => isDigit_ofNat hc) fun _ h => h.choose_spec.lt_ascii.1

/-- Whether a digit or a separator comes next. -/
theorem nextIsDigitOrSeparator_iff :
    cursor.nextIsAsciiPred (fun ch => isDigit radix ch || ch == '_') = false ↔
      NextNot (IsDigitOrSeparator radix) cursor.rest := by
  refine nextIsAsciiPred_iff (fun c hc => ?_) fun c h => ?_
  · have hseparator : (Char.ofNat c == '_') = true ↔ c = 0x5F := by
      rw [beq_iff_eq, ← Char.toNat_inj, toNat_charOfNat (.inl (by omega))]
      rfl
    rw [Bool.or_eq_true, isDigit_ofNat hc, hseparator, IsDigitOrSeparator]
  · rcases h with ⟨d, hd⟩ | rfl
    · exact hd.lt_ascii.1
    · decide

/-- The check behind a literal. -/
theorem checkAfterNumericLiteral_iff : checkAfterNumericLiteral cursor = .ok () ↔
    NextNot IsIdentifierCharacter cursor.rest := by
  have hpred : ∀ c ≤ 0x7F, ((Char.ofNat c).isAlphanum || Char.ofNat c == '$' ||
      Char.ofNat c == '_') = true ↔ IsIdentifierCharacter c := by decide
  have hascii (c : ℕ) (h : IsIdentifierCharacter c) : c ≤ 0x7F := by
    rw [IsIdentifierCharacter] at h
    omega
  rw [← @nextIsAsciiPred_iff _ (fun ch => ch.isAlphanum || ch == '$' || ch == '_') _ hpred hascii,
    checkAfterNumericLiteral]
  split <;> simp_all

/-- The next character is retrieved. -/
theorem expectNext_eq (message : String) (h : cursor.rest = c :: rest) :
    expectNext message cursor = .ok (c, cursor.advance) := by
  rw [expectNext, Cursor.nextChar, Cursor.peekChar_of_rest h]

/-! ### The digits that are taken -/

section TakeInteger

variable {prevIsUnderscore : Bool}

/-- The loop ends in front of any other character. -/
theorem takeIntegerLoop_stop (h : NextNot (IsDigitOrSeparator kind.base) cursor.rest) :
    takeIntegerLoop kind separatorAllowed buf prevIsUnderscore pos cursor =
      if prevIsUnderscore then
        .error (.syntaxError "underscores are not allowed at the end of numeric literals" pos)
      else .ok (buf, cursor) := by
  rw [takeIntegerLoop]
  split
  · rw [nextIsDigitOrSeparator_iff.mpr h, if_neg Bool.false_ne_true]
  · rfl

/-- Where the next character is a digit or a separator, the loop goes on. -/
private theorem nextIsDigitOrSeparator_of_cons (h : IsDigitOrSeparator radix c)
    (hrest : cursor.rest = c :: rest) :
    cursor.nextIsAsciiPred (fun ch => isDigit radix ch || ch == '_') = true := by
  rw [← Bool.not_eq_false, nextIsDigitOrSeparator_iff, hrest, nextNot_cons, not_not]
  exact h

/-- A digit is pushed. -/
theorem takeIntegerLoop_digit (h : IsDigit kind.base c d) (hrest : cursor.rest = c :: rest) :
    takeIntegerLoop kind separatorAllowed buf prevIsUnderscore pos cursor =
      takeIntegerLoop kind separatorAllowed (buf ++ [byteOf c]) false cursor.pos
        cursor.advance := by
  rw [takeIntegerLoop]
  split
  · next c' hpeek =>
      obtain rfl := Option.some.inj ((Cursor.peekChar_of_rest hrest).symm.trans hpeek)
      rw [if_pos (nextIsDigitOrSeparator_of_cons (.inl ⟨d, h⟩) hrest), if_neg h.lt_ascii.2.1,
        if_pos (any_isDigit_iff.mpr ⟨d, h⟩)]
  · next hpeek =>
      rw [Cursor.peekChar_of_rest hrest] at hpeek
      cases hpeek

/-- A separator must be allowed, and must not follow another one. -/
theorem takeIntegerLoop_separator (hrest : cursor.rest = 0x5F :: rest) :
    takeIntegerLoop kind separatorAllowed buf prevIsUnderscore pos cursor =
      if separatorAllowed then
        if prevIsUnderscore then
          .error (.syntaxError "only one underscore is allowed as numeric separator"
            cursor.advance.pos)
        else takeIntegerLoop kind separatorAllowed buf true cursor.pos cursor.advance
      else .error (.syntaxError "separator is not allowed" cursor.pos) := by
  rw [takeIntegerLoop]
  split
  · next c hpeek =>
      obtain rfl := Option.some.inj ((Cursor.peekChar_of_rest hrest).symm.trans hpeek)
      rw [if_pos (nextIsDigitOrSeparator_of_cons (.inr rfl) hrest), if_pos rfl]
  · next hpeek =>
      rw [Cursor.peekChar_of_rest hrest] at hpeek
      cases hpeek

/-- A tail has a digit behind each separator. -/
theorem not_separatedTail_separator (h : NextNot (fun c => ∃ d, IsDigit radix c d) s) :
    ¬ SeparatedTail radix (0x5F :: s) digits := by
  intro htail
  cases htail with
  | digit hd _ => exact hd.lt_ascii.2.1 rfl
  | separator hd _ => exact (nextNot_cons _).mp h ⟨_, hd⟩

/-- Behind a digit, and a separator in front of it or not, a tail goes on. -/
theorem separatedTail_cons_iff (h : IsDigit radix c d) :
    (∃ digits, SeparatedTail radix (if prevIsUnderscore then 0x5F :: c :: s else c :: s) digits) ↔
      ∃ digits, SeparatedTail radix s digits := by
  cases prevIsUnderscore with
  | false =>
      constructor
      · rintro ⟨digits, htail⟩
        cases htail with
        | digit _ htail => exact ⟨_, htail⟩
        | separator _ _ => exact absurd rfl h.lt_ascii.2.1
      · rintro ⟨digits, htail⟩
        exact ⟨_, .digit h htail⟩
  | true =>
      constructor
      · rintro ⟨digits, htail⟩
        cases htail with
        | digit hd _ => exact absurd rfl hd.lt_ascii.2.1
        | separator _ htail => exact ⟨_, htail⟩
      · rintro ⟨digits, htail⟩
        exact ⟨_, .separator h htail⟩

/-- A text that is not left begins with the first character, if this must be taken. -/
theorem exists_cons_of_nextNot {p : ℕ → Prop} (h : c :: t = s ++ rest) (hnext : NextNot p rest)
    (hc : p c) : ∃ s', s = c :: s' ∧ t = s' ++ rest := by
  cases s with
  | nil =>
      rw [List.nil_append] at h
      rw [← h, nextNot_cons] at hnext
      exact absurd hc hnext
  | cons c' s' =>
      obtain ⟨rfl, rfl⟩ := List.cons.inj h
      exact ⟨s', rfl, rfl⟩

/-- What the loop takes in front of any other character: nothing. -/
theorem takeIntegerLoop_stop_iff (h : NextNot (IsDigitOrSeparator kind.base) cursor.rest) :
    Delivers (takeIntegerLoop kind separatorAllowed buf prevIsUnderscore pos cursor) buf' rest ↔
      ∃ s, cursor.rest = s ++ rest ∧
        (∃ digits, SeparatedTail kind.base (if prevIsUnderscore then 0x5F :: s else s) digits) ∧
        (separatorAllowed = false → 0x5F ∉ s) ∧
        NextNot (IsDigitOrSeparator kind.base) rest ∧ buf' = buf ++ chars s := by
  have hnil {s : List ℕ} (hs : cursor.rest = s ++ rest)
      (htail : ∃ digits,
        SeparatedTail kind.base (if prevIsUnderscore then 0x5F :: s else s) digits) : s = [] := by
    cases s with
    | nil => rfl
    | cons c s =>
        obtain ⟨digits, htail⟩ := htail
        rw [hs, List.cons_append, nextNot_cons] at h
        exact absurd (htail.mem (by split <;> simp)) h
  rw [takeIntegerLoop_stop h]
  cases prevIsUnderscore with
  | true =>
      refine iff_of_false not_delivers_error ?_
      rintro ⟨s, hs, htail, -⟩
      obtain rfl := hnil hs htail
      obtain ⟨digits, htail⟩ := htail
      exact not_separatedTail_separator nextNot_nil htail
  | false =>
      rw [if_neg Bool.false_ne_true, delivers_ok]
      constructor
      · rintro ⟨rfl, rfl⟩
        exact ⟨[], rfl, ⟨[], .nil⟩, fun _ => List.not_mem_nil, h, by simp⟩
      · rintro ⟨s, hs, htail, -, -, rfl⟩
        obtain rfl := hnil hs htail
        exact ⟨by simp, hs⟩

/-- What the loop takes, behind a separator or not. -/
theorem takeIntegerLoop_iff :
    Delivers (takeIntegerLoop kind separatorAllowed buf prevIsUnderscore pos cursor) buf' rest ↔
      ∃ s, cursor.rest = s ++ rest ∧
        (∃ digits, SeparatedTail kind.base (if prevIsUnderscore then 0x5F :: s else s) digits) ∧
        (separatorAllowed = false → 0x5F ∉ s) ∧
        NextNot (IsDigitOrSeparator kind.base) rest ∧ buf' = buf ++ chars s := by
  induction htext : cursor.rest generalizing cursor buf prevIsUnderscore pos with
  | nil =>
      rw [← htext]
      exact takeIntegerLoop_stop_iff (htext ▸ nextNot_nil)
  | cons c text ih =>
      by_cases hdigit : ∃ d, IsDigit kind.base c d
      · obtain ⟨d, hd⟩ := hdigit
        have hadvance := Cursor.rest_advance_of_ne htext hd.lt_ascii.2.2
        have hchars (s : List ℕ) : buf ++ [byteOf c] ++ chars s = buf ++ chars (c :: s) := by
          rw [chars_cons hd.lt_ascii.2.1, List.append_assoc, List.singleton_append]
        rw [takeIntegerLoop_digit hd htext, ih hadvance]
        constructor
        · rintro ⟨s, rfl, htail, hnot, hnext, rfl⟩
          refine ⟨c :: s, rfl, (separatedTail_cons_iff hd).mpr htail, fun hfalse => ?_, hnext,
            hchars s⟩
          rw [List.mem_cons, not_or]
          exact ⟨hd.lt_ascii.2.1.symm, hnot hfalse⟩
        · rintro ⟨s, hs, htail, hnot, hnext, rfl⟩
          obtain ⟨s, rfl, rfl⟩ := exists_cons_of_nextNot hs hnext (.inl ⟨d, hd⟩)
          exact ⟨s, rfl, (separatedTail_cons_iff hd).mp htail,
            fun hfalse hmem => hnot hfalse (List.mem_cons_of_mem _ hmem), hnext, (hchars s).symm⟩
      by_cases hseparator : c = 0x5F
      · subst hseparator
        have hadvance := Cursor.rest_advance_of_ne htext (by decide)
        rw [takeIntegerLoop_separator htext]
        cases separatorAllowed with
        | false =>
            refine iff_of_false not_delivers_error ?_
            rintro ⟨s, hs, -, hnot, hnext, -⟩
            obtain ⟨s, rfl, -⟩ := exists_cons_of_nextNot hs hnext (.inr rfl)
            exact hnot rfl List.mem_cons_self
        | true =>
            cases prevIsUnderscore with
            | true =>
                refine iff_of_false not_delivers_error ?_
                rintro ⟨s, hs, ⟨digits, htail⟩, -, hnext, -⟩
                obtain ⟨s, rfl, -⟩ := exists_cons_of_nextNot hs hnext (.inr rfl)
                exact not_separatedTail_separator ((nextNot_cons _).mpr hdigit) htail
            | false =>
                rw [if_pos rfl, if_neg Bool.false_ne_true, ih hadvance]
                constructor
                · rintro ⟨s, rfl, htail, -, hnext, rfl⟩
                  exact ⟨0x5F :: s, rfl, htail, by simp, hnext, by rw [chars_separator]⟩
                · rintro ⟨s, hs, htail, -, hnext, rfl⟩
                  obtain ⟨s, rfl, rfl⟩ := exists_cons_of_nextNot hs hnext (.inr rfl)
                  exact ⟨s, rfl, htail, by simp, hnext, by rw [chars_separator]⟩
      · rw [← htext]
        refine takeIntegerLoop_stop_iff ?_
        rw [htext, nextNot_cons, IsDigitOrSeparator, not_or]
        exact ⟨hdigit, hseparator⟩

/-- **The digits that are taken**: a tail in front of another character. -/
theorem takeInteger_iff :
    Delivers (takeInteger buf cursor kind separatorAllowed) buf' rest ↔
      ∃ s, cursor.rest = s ++ rest ∧ (∃ digits, SeparatedTail kind.base s digits) ∧
        (separatorAllowed = false → 0x5F ∉ s) ∧
        NextNot (IsDigitOrSeparator kind.base) rest ∧ buf' = buf ++ chars s :=
  takeIntegerLoop_iff

end TakeInteger

/-- Digits are a tail that begins with a digit. -/
theorem exists_separatedDigits_iff : (∃ digits, SeparatedDigits radix s digits) ↔
    (∃ digits, SeparatedTail radix s digits) ∧ ∃ c s' d, s = c :: s' ∧ IsDigit radix c d := by
  constructor
  · rintro ⟨_, h⟩
    cases h with
    | mk hd htail => exact ⟨⟨_, .digit hd htail⟩, _, _, _, rfl, hd⟩
  · rintro ⟨⟨_, htail⟩, c, s', d, rfl, hd⟩
    obtain ⟨digits, htail⟩ := (@separatedTail_cons_iff _ _ _ _ false hd).mp ⟨_, htail⟩
    exact ⟨d :: digits, .mk hd htail⟩

/-- Digits are pushed as such. -/
theorem SeparatedDigits.isDigits (h : SeparatedDigits radix s digits) :
    IsDigits radix (chars s) digits ∧ chars s ≠ [] := by
  cases h with
  | mk hd htail =>
      refine ⟨(SeparatedTail.digit hd htail).isDigits, ?_⟩
      rw [chars_cons hd.lt_ascii.2.1]
      exact List.cons_ne_nil _ _

/-- What is taken where a digit comes next. -/
theorem takeInteger_digits_iff (hrest : cursor.rest = c :: t) (hd : IsDigit kind.base c d) :
    Delivers (takeInteger buf cursor kind true) buf' rest ↔
      ∃ s digits, cursor.rest = s ++ rest ∧ SeparatedDigits kind.base s digits ∧
        NextNot (IsDigitOrSeparator kind.base) rest ∧ buf' = buf ++ chars s := by
  rw [takeInteger_iff]
  constructor
  · rintro ⟨s, hs, htail, -, hnext, rfl⟩
    obtain ⟨s, rfl, -⟩ := exists_cons_of_nextNot (hrest ▸ hs) hnext (.inl ⟨d, hd⟩)
    obtain ⟨digits, hdigits⟩ := exists_separatedDigits_iff.mpr ⟨htail, c, s, d, rfl, hd⟩
    exact ⟨c :: s, digits, hs, hdigits, hnext, rfl⟩
  · rintro ⟨s, digits, hs, hdigits, hnext, rfl⟩
    exact ⟨s, hs, (exists_separatedDigits_iff.mp ⟨digits, hdigits⟩).1, by simp, hnext, rfl⟩

/-- What is taken if a digit must come next. -/
theorem takeInteger_of_digit_iff {error : Error} :
    Delivers (if cursor.nextIsAsciiPred (isDigit kind.base) then takeInteger buf cursor kind true
      else .error error) buf' rest ↔
      ∃ s digits, cursor.rest = s ++ rest ∧ SeparatedDigits kind.base s digits ∧
        NextNot (IsDigitOrSeparator kind.base) rest ∧ buf' = buf ++ chars s := by
  by_cases hfirst : ∃ c t d, cursor.rest = c :: t ∧ IsDigit kind.base c d
  · obtain ⟨c, t, d, hrest, hd⟩ := hfirst
    have hnext : cursor.nextIsAsciiPred (isDigit kind.base) = true := by
      rw [← Bool.not_eq_false, nextIsDigit_iff, hrest, nextNot_cons, not_not]
      exact ⟨d, hd⟩
    rw [if_pos hnext, takeInteger_digits_iff hrest hd]
  · have hnext : cursor.nextIsAsciiPred (isDigit kind.base) = false := by
      rw [nextIsDigit_iff]
      rintro c hc ⟨d, hd⟩
      obtain ⟨t, hrest⟩ := List.head?_eq_some_iff.mp hc
      exact hfirst ⟨c, t, d, hrest, hd⟩
    rw [hnext, if_neg Bool.false_ne_true]
    refine iff_of_false not_delivers_error ?_
    rintro ⟨s, digits, hs, hdigits, -⟩
    cases hdigits with
    | mk hd _ => exact hfirst ⟨_, _, _, hs, hd⟩

/-- A sign and digits begin with the sign, if there is one. -/
private theorem exponentSign_cases {sign digits text : List ℕ} {negative : Bool}
    (h : ExponentSign sign negative) (hs : SeparatedDigits 10 s digits)
    (htext : c :: text = sign ++ (s ++ rest)) :
    sign = [] ∧ (∃ d, IsDigit 10 c d) ∨ c = 0x2B ∧ sign = [c] ∧ text = s ++ rest ∨
      c = 0x2D ∧ sign = [c] ∧ text = s ++ rest := by
  cases h with
  | none =>
      cases hs with
      | mk hd _ =>
          obtain ⟨rfl, -⟩ := List.cons.inj htext
          exact .inl ⟨rfl, _, hd⟩
  | plus =>
      obtain ⟨rfl, rfl⟩ := List.cons.inj htext
      exact .inr (.inl ⟨rfl, rfl, rfl⟩)
  | minus =>
      obtain ⟨rfl, rfl⟩ := List.cons.inj htext
      exact .inr (.inr ⟨rfl, rfl, rfl⟩)

/-- Digits behind a sign are an exponent that begins with it. -/
private theorem exponentSign_iff {text : List ℕ} (hc : c = 0x2B ∨ c = 0x2D) :
    (∃ s digits, text = s ++ rest ∧ SeparatedDigits 10 s digits ∧
      NextNot (IsDigitOrSeparator 10) rest ∧ buf' = buf ++ [byteOf c] ++ chars s) ↔
    ∃ sign negative s digits, c :: text = sign ++ (s ++ rest) ∧ ExponentSign sign negative ∧
      SeparatedDigits 10 s digits ∧ NextNot (IsDigitOrSeparator 10) rest ∧
      buf' = buf ++ chars (sign ++ s) := by
  have hchars (s : List ℕ) : buf ++ [byteOf c] ++ chars s = buf ++ chars ([c] ++ s) := by
    rw [List.singleton_append, chars_cons (by omega), List.append_assoc, List.singleton_append]
  constructor
  · rintro ⟨s, digits, rfl, hdigits, hnext, rfl⟩
    rcases hc with rfl | rfl
    · exact ⟨_, _, s, digits, rfl, .plus, hdigits, hnext, hchars s⟩
    · exact ⟨_, _, s, digits, rfl, .minus, hdigits, hnext, hchars s⟩
  · rintro ⟨sign, negative, s, digits, hs, hsign, hdigits, hnext, rfl⟩
    rcases exponentSign_cases hsign hdigits hs with ⟨-, d, hd⟩ | ⟨-, rfl, rfl⟩ | ⟨-, rfl, rfl⟩
    · rw [isDigit_iff_of_le (Nat.le_refl 10)] at hd
      omega
    · exact ⟨s, digits, rfl, hdigits, hnext, (hchars s).symm⟩
    · exact ⟨s, digits, rfl, hdigits, hnext, (hchars s).symm⟩

/-- **The digits of an exponent that are taken**, with their sign. -/
theorem takeSignedInteger_iff :
    Delivers (takeSignedInteger buf cursor .rational) buf' rest ↔
      ∃ sign negative s digits, cursor.rest = sign ++ (s ++ rest) ∧ ExponentSign sign negative ∧
        SeparatedDigits 10 s digits ∧ NextNot (IsDigitOrSeparator 10) rest ∧
        buf' = buf ++ chars (sign ++ s) := by
  cases htext : cursor.rest with
  | nil =>
      have hpeek : cursor.peekChar = none := by rw [Cursor.peekChar, htext, List.head?_nil]
      rw [takeSignedInteger, Cursor.nextChar, hpeek]
      refine iff_of_false not_delivers_error ?_
      rintro ⟨sign, negative, s, digits, hs, -, hdigits, -⟩
      cases hdigits
      simp at hs
  | cons c text =>
      rw [takeSignedInteger, Cursor.nextChar, Cursor.peekChar_of_rest htext]
      dsimp only
      by_cases hplus : c = 0x2B
      · rw [if_pos hplus, takeInteger_of_digit_iff, Cursor.rest_advance_of_ne htext (by omega),
          ← exponentSign_iff (.inl hplus), hplus]
        rfl
      by_cases hminus : c = 0x2D
      · rw [if_neg hplus, if_pos hminus, takeInteger_of_digit_iff,
          Cursor.rest_advance_of_ne htext (by omega), ← exponentSign_iff (.inr hminus), hminus]
        rfl
      rw [if_neg hplus, if_neg hminus]
      change Delivers (if (charFromU32 c).any (fun ch => decide (ch.toNat ≤ 0x7F) && isDigit 10 ch)
        then _ else _) _ _ ↔ _
      by_cases hdigit : ∃ d, IsDigit 10 c d
      · obtain ⟨d, hd⟩ := hdigit
        have hchars (s : List ℕ) : buf ++ [byteOf c] ++ chars s = buf ++ chars ([] ++ c :: s) := by
          rw [List.nil_append, chars_cons hd.lt_ascii.2.1, List.append_assoc, List.singleton_append]
        rw [if_pos (any_isAscii_isDigit_iff.mpr ⟨d, hd⟩), takeInteger_iff,
          Cursor.rest_advance_of_ne htext hd.lt_ascii.2.2]
        constructor
        · rintro ⟨s, rfl, ⟨digits, htail⟩, -, hnext, rfl⟩
          exact ⟨[], _, c :: s, d :: digits, rfl, .none, .mk hd htail, hnext, hchars s⟩
        · rintro ⟨sign, negative, s, digits, hs, hsign, hdigits, hnext, rfl⟩
          rcases exponentSign_cases hsign hdigits hs with ⟨rfl, -⟩ | ⟨h, -⟩ | ⟨h, -⟩
          · cases hdigits with
            | mk hd' htail =>
                obtain ⟨rfl, rfl⟩ := List.cons.inj hs
                exact ⟨_, rfl, ⟨_, htail⟩, by simp, hnext, (hchars _).symm⟩
          · exact absurd h hplus
          · exact absurd h hminus
      · rw [if_neg fun h => hdigit (any_isAscii_isDigit_iff.mp h)]
        refine iff_of_false not_delivers_error ?_
        rintro ⟨sign, negative, s, digits, hs, hsign, hdigits, -⟩
        rcases exponentSign_cases hsign hdigits hs with ⟨-, h⟩ | ⟨h, -⟩ | ⟨h, -⟩
        · exact hdigit h
        · exact hplus h
        · exact hminus h

end BoaLigero.Lexer
