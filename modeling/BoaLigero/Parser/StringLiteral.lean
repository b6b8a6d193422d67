import BoaLigero.Parser.StringEscape

/-!
# String Literals

The lexer of string literals (`lexer/string.rs`).

## Main results

* `lexStringLiteral_iff` — what is read as a string literal.
* `IsStringLiteral.signed_unique` — whether a literal has a plus sign in an escape is unique.
-/

namespace BoaLigero.Lexer

/-- `StringTerminator`. -/
inductive StringTerminator where
  | singleQuote
  | doubleQuote
  deriving DecidableEq

/-- The character of a terminator. -/
def StringTerminator.code : StringTerminator → ℕ
  | singleQuote => 0x27
  | doubleQuote => 0x22

variable {signed strict : Bool} {rest : List ℕ} {cursor : Cursor} {startPos : Position}

/-- Pushes what an escape sequence stands for; a line continuation stands for nothing. -/
def pushEscapeValue (buf : List UInt16) : Option ℕ → List UInt16
  | some escapeValue => pushCodePoint buf escapeValue
  | none => buf

/-- The loop of `take_string_characters`. -/
def takeStringCharactersLoop (terminator : StringTerminator) (strict : Bool) (buf : List UInt16)
    (escapeSequence : EscapeSequence) (cursor : Cursor) :
    Except Error ((List UInt16 × EscapeSequence) × Cursor) :=
  match _hnext : cursor.nextChar with
  | (none, _) => .error (.unexpectedEof "unterminated string literal")
  | (some ch, cursor') =>
      if ch = 0x0027 ∧ terminator = .singleQuote then .ok ((buf, escapeSequence), cursor')
      else if ch = 0x0022 ∧ terminator = .doubleQuote then .ok ((buf, escapeSequence), cursor')
      else if ch = 0x005C then
        match _hescape : takeEscapeSequenceOrLineContinuation cursor' cursor.pos strict false with
        | .error error => .error error
        | .ok ((escapeValue, escape), cursor'') =>
            takeStringCharactersLoop terminator strict (pushEscapeValue buf escapeValue)
              (escapeSequence.union escape) cursor''
      else if ch = 0x2028 then
        takeStringCharactersLoop terminator strict (buf ++ [0x2028]) escapeSequence cursor'
      else if ch = 0x2029 then
        takeStringCharactersLoop terminator strict (buf ++ [0x2029]) escapeSequence cursor'
      else if !isLineTerminator ch then
        takeStringCharactersLoop terminator strict (pushCodePoint buf ch) escapeSequence cursor'
      else .error (.unexpectedEof "unterminated string literal")
termination_by cursor.rest.length
decreasing_by
  · exact Nat.lt_of_le_of_lt (length_takeEscapeSequenceOrLineContinuation _hescape)
      (length_nextChar_lt _hnext)
  all_goals exact length_nextChar_lt _hnext

/-- What the lexer returns of a string literal. -/
structure StringToken where
  literal : List UInt16
  span : Position × Position
  escapeSequence : EscapeSequence
  deriving DecidableEq

/-- `take_string_characters`. -/
def takeStringCharacters (cursor : Cursor) (startPos : Position) (terminator : StringTerminator)
    (strict : Bool) : Except Error (StringToken × Cursor) :=
  match takeStringCharactersLoop terminator strict [] {} cursor with
  | .error error => .error error
  | .ok ((buf, escapeSequence), cursor) =>
      .ok ({ literal := buf, span := (startPos, cursor.pos), escapeSequence }, cursor)

/-- `StringLiteral::lex`. -/
def lexStringLiteral (terminator : StringTerminator) (cursor : Cursor) (startPos : Position) :
    Except Error (StringToken × Cursor) :=
  takeStringCharacters cursor startPos terminator cursor.strict

variable {terminator : StringTerminator} {buf units : List UInt16} {flags : EscapeSequence}

/-- A quote is the terminator of its literal. -/
theorem terminator_iff {ch : ℕ} :
    ch = 0x0027 ∧ terminator = .singleQuote ∨ ch = 0x0022 ∧ terminator = .doubleQuote ↔
      ch = terminator.code := by
  cases terminator <;> simp [StringTerminator.code]

/-- The loop, by its next character. -/
theorem takeStringCharactersLoop_of_rest {ch : ℕ} {after : List ℕ} (h : cursor.rest = ch :: after) :
    takeStringCharactersLoop terminator strict buf flags cursor =
      if ch = terminator.code then .ok ((buf, flags), cursor.advance)
      else if ch = 0x005C then
        match takeEscapeSequenceOrLineContinuation cursor.advance cursor.pos strict false with
        | .error error => .error error
        | .ok ((escapeValue, escape), cursor) =>
            takeStringCharactersLoop terminator strict
              (buf ++ (escapeValue.map utf16EncodeCodePoint).getD []) (flags.union escape) cursor
      else if IsLineTerminator ch ∧ ch ≠ 0x2028 ∧ ch ≠ 0x2029 then
        .error (.unexpectedEof "unterminated string literal")
      else
        takeStringCharactersLoop terminator strict (buf ++ utf16EncodeCodePoint ch) flags
          cursor.advance := by
  rw [takeStringCharactersLoop]
  split
  · next hnone => rw [nextChar_of_rest h] at hnone; cases hnone
  · next ch' cursor' hnext =>
      rw [nextChar_of_rest h] at hnext
      cases hnext
      by_cases hquote : ch = terminator.code
      · rw [if_pos hquote]
        rcases terminator_iff.mpr hquote with hsingle | hdouble
        · rw [if_pos hsingle]
        · rw [if_pos hdouble, ite_self]
      · have hnot := (not_congr terminator_iff).mpr hquote
        rw [not_or] at hnot
        rw [if_neg hquote, if_neg hnot.1, if_neg hnot.2]
        by_cases hbackslash : ch = 0x005C
        · rw [if_pos hbackslash, if_pos hbackslash]
          split
          · next error herror => simp only [herror]
          · next escapeValue escape cursor' hescape =>
              simp only [hescape]
              cases escapeValue with
              | none => rw [pushEscapeValue, Option.map_none, Option.getD_none, List.append_nil]
              | some v => rw [pushEscapeValue, pushCodePoint_eq, Option.map_some, Option.getD_some]
        · rw [if_neg hbackslash, if_neg hbackslash]
          by_cases hls : ch = 0x2028
          · rw [if_pos hls, if_neg fun hline => hline.2.1 hls, hls]
            rfl
          · by_cases hps : ch = 0x2029
            · rw [if_neg hls, if_pos hps, if_neg fun hline => hline.2.2 hps, hps]
              rfl
            · rw [if_neg hls, if_neg hps, pushCodePoint_eq]
              by_cases hline : IsLineTerminator ch
              · rw [if_neg (by simp [isLineTerminator_iff.mpr hline]), if_pos ⟨hline, hls, hps⟩]
              · have hfalse : isLineTerminator ch = false := by
                  rw [← Bool.not_eq_true, isLineTerminator_iff]
                  exact hline
                rw [if_pos (by rw [hfalse]; rfl), if_neg fun h => hline h.1]

theorem takeStringCharactersLoop_nil (h : cursor.rest = []) :
    takeStringCharactersLoop terminator strict buf flags cursor =
      .error (.unexpectedEof "unterminated string literal") := by
  rw [takeStringCharactersLoop]
  split
  · rfl
  · next ch' cursor' hnext =>
      rw [Cursor.nextChar, Cursor.peekChar, h] at hnext
      cases hnext

theorem terminator_code_ne : terminator.code ≠ 0x0D ∧ terminator.code ≠ 0x5C := by
  cases terminator <;> decide

theorem takeStringCharactersLoop_sound {flags' : EscapeSequence}
    (h : Delivers (takeStringCharactersLoop terminator strict buf flags cursor)
      (units, flags') rest) :
    ∃ signed value, units = buf ++ value ∧
      IsStringLiteral strict terminator.code signed cursor.rest rest value := by
  induction hlen : cursor.rest.length using Nat.strong_induction_on
    generalizing buf flags cursor with
  | _ length ih =>
      subst hlen
      cases hrest : cursor.rest with
      | nil =>
          rw [takeStringCharactersLoop_nil hrest] at h
          exact absurd h not_delivers_error
      | cons ch after =>
          have hlt : cursor.advance.rest.length < cursor.rest.length :=
            length_nextChar_lt (nextChar_of_rest hrest)
          rw [takeStringCharactersLoop_of_rest hrest] at h
          split_ifs at h with hquote hbackslash hline
          · rw [delivers_ok, Cursor.rest_advance_of_ne hrest (hquote ▸ terminator_code_ne.1)] at h
            obtain ⟨hunits, rfl⟩ := h
            cases hunits
            exact ⟨false, [], (List.append_nil _).symm, hquote ▸ .nil⟩
          · subst hbackslash
            split at h
            · exact absurd h not_delivers_error
            · next escapeValue escape cursor' hescape =>
                have hadvance := Cursor.rest_advance_of_ne hrest (by decide)
                have hle := length_takeEscapeSequenceOrLineContinuation hescape
                obtain ⟨signed, value, rfl, hliteral⟩ := ih _ (hle.trans_lt hlt) h rfl
                obtain ⟨signed', hescaped⟩ :=
                  takeEscapeSequenceOrLineContinuation_sound ⟨cursor', hescape, rfl⟩
                rw [hadvance] at hescaped
                rw [List.append_assoc]
                cases hescaped with
                | shared hshared => exact ⟨_, _, rfl, .escape hshared hliteral⟩
                | legacy hstrict hlegacy =>
                    exact ⟨_, _, rfl, .legacyEscape hstrict hlegacy hliteral⟩
                | lineContinuation hline => exact ⟨_, _, rfl, .lineContinuation hline hliteral⟩
          · exact absurd h not_delivers_error
          · obtain ⟨signed, value, rfl, hliteral⟩ := ih _ hlt h rfl
            have hlines : IsLineTerminator ch → ch = 0x2028 ∨ ch = 0x2029 := by
              intro hterminator
              by_contra hnot
              rw [not_or] at hnot
              exact hline ⟨hterminator, hnot.1, hnot.2⟩
            have hne : ch ≠ 0x0D := by
              rintro rfl
              exact absurd (hlines (by decide)) (by decide)
            rw [Cursor.rest_advance_of_ne hrest hne] at hliteral
            exact ⟨signed, _, List.append_assoc _ _ _, .char hquote hbackslash hlines hliteral⟩

theorem takeStringCharactersLoop_complete {input : List ℕ} {value : List UInt16}
    (h : StringCharacters strict terminator.code signed input (terminator.code :: rest) value)
    (hinput : cursor.rest = input) (buf : List UInt16) (flags : EscapeSequence) :
    ∃ flags', Delivers (takeStringCharactersLoop terminator strict buf flags cursor)
      (buf ++ value, flags') rest := by
  -- what is read behind a backslash, and the literal behind that
  have hbackslash {input middle : List ℕ} {tail : List UInt16} {cursor : Cursor}
      {escapeValue : Option ℕ} {buf : List UInt16} {flags : EscapeSequence}
      (hinput : cursor.rest = 0x5C :: input)
      (hescape : ∃ signed, IsEscaped strict signed input middle escapeValue)
      (ih : ∀ {cursor : Cursor}, cursor.rest = middle → ∀ (buf : List UInt16)
        (flags : EscapeSequence), ∃ flags',
          Delivers (takeStringCharactersLoop terminator strict buf flags cursor)
            (buf ++ tail, flags') rest) :
      ∃ flags', Delivers (takeStringCharactersLoop terminator strict buf flags cursor)
        (buf ++ ((escapeValue.map utf16EncodeCodePoint).getD [] ++ tail), flags') rest := by
    rw [← Cursor.rest_advance_of_ne hinput (by decide)] at hescape
    obtain ⟨escape, cursor', htake, hmiddle⟩ :=
      (@takeEscapeSequenceOrLineContinuation_iff _ _ cursor.pos _ _).mpr hescape
    rw [takeStringCharactersLoop_of_rest hinput, if_neg (Ne.symm terminator_code_ne.2), if_pos rfl]
    simp only [htake]
    rw [← List.append_assoc]
    exact ih hmiddle _ _
  generalize hbehind : terminator.code :: rest = behind at h
  induction h generalizing cursor buf flags with
  | nil =>
      subst hbehind
      rw [takeStringCharactersLoop_of_rest hinput, if_pos rfl, List.append_nil]
      exact ⟨flags, _, rfl, Cursor.rest_advance_of_ne hinput terminator_code_ne.1⟩
  | @char _ c _ _ _ hquote hne hline _ ih =>
      have hcr : c ≠ 0x0D := by
        rintro rfl
        exact absurd (hline (by decide)) (by decide)
      have hplain : ¬ (IsLineTerminator c ∧ c ≠ 0x2028 ∧ c ≠ 0x2029) := fun h =>
        (hline h.1).elim h.2.1 h.2.2
      rw [takeStringCharactersLoop_of_rest hinput, if_neg hquote, if_neg hne, if_neg hplain,
        ← List.append_assoc]
      exact ih (Cursor.rest_advance_of_ne hinput hcr) _ _ hbehind
  | escape hescape _ ih =>
      exact hbackslash hinput ⟨_, .shared hescape⟩ fun hmiddle buf flags =>
        ih hmiddle buf flags hbehind
  | legacyEscape hstrict hescape _ ih =>
      exact hbackslash hinput ⟨_, .legacy hstrict hescape⟩ fun hmiddle buf flags =>
        ih hmiddle buf flags hbehind
  | lineContinuation hline _ ih =>
      exact hbackslash hinput ⟨_, .lineContinuation hline⟩ fun hmiddle buf flags =>
        ih hmiddle buf flags hbehind

/-- **What is read as a string literal**, with its value: a literal of the grammar in which the
hexadecimal digits of an escape may have a plus sign in front of them. -/
theorem lexStringLiteral_iff :
    (∃ token, Delivers (lexStringLiteral terminator cursor startPos) token rest ∧
      token.literal = units) ↔
      ∃ signed, IsStringLiteral cursor.strict terminator.code signed cursor.rest rest units := by
  constructor
  · rintro ⟨token, h, rfl⟩
    rw [lexStringLiteral, takeStringCharacters] at h
    split at h
    · exact absurd h not_delivers_error
    · next buf flags cursor' hloop =>
        rw [delivers_ok] at h
        obtain ⟨rfl, hrest⟩ := h
        obtain ⟨signed, value, hvalue, hliteral⟩ :=
          takeStringCharactersLoop_sound ⟨cursor', hloop, hrest⟩
        rw [List.nil_append] at hvalue
        exact ⟨signed, hvalue ▸ hliteral⟩
  · rintro ⟨signed, h⟩
    obtain ⟨flags, cursor', hloop, hrest⟩ := takeStringCharactersLoop_complete h rfl [] {}
    rw [List.nil_append] at hloop
    refine ⟨{ literal := units, span := (startPos, cursor'.pos), escapeSequence := flags }, ?_, rfl⟩
    rw [lexStringLiteral, takeStringCharacters, hloop]
    exact ⟨cursor', rfl, hrest⟩

/-- Whether a literal has a plus sign in an escape is unique. -/
theorem IsStringLiteral.signed_unique {quote : ℕ} {signed' : Bool} {input rest' : List ℕ}
    {units' : List UInt16} (hquote : quote ≠ 0x5C)
    (h : IsStringLiteral strict quote signed input rest units)
    (h' : IsStringLiteral strict quote signed' input rest' units') : signed = signed' := by
  rw [IsStringLiteral] at h h'
  generalize hbehind : quote :: rest = behind at h
  generalize hbehind' : quote :: rest' = behind' at h'
  -- a backslash is followed by the same in both
  have hbackslash (strict : Bool) {signed₁ signed₂ : Bool} {input m₁ m₂ : List ℕ} {v₁ v₂ : Option ℕ}
      (h₁ : IsEscaped strict signed₁ input m₁ v₁) (h₂ : IsEscaped strict signed₂ input m₂ v₂) :
      signed₁ = signed₂ ∧ m₁ = m₂ := ⟨(h₁.unique h₂).1, (h₁.unique h₂).2.1⟩
  induction h generalizing signed' units' with
  | nil =>
      subst hbehind
      generalize hinput : quote :: rest = input at h'
      cases h' with
      | nil => rfl
      | char hne _ _ _ =>
          obtain ⟨rfl, -⟩ := List.cons.inj hinput
          exact absurd rfl hne
      | escape _ _ | legacyEscape _ _ _ | lineContinuation _ _ =>
          exact absurd (List.cons.inj hinput).1 hquote
  | char hne hnotBackslash _ _ ih =>
      cases h' with
      | nil => exact absurd (List.cons.inj hbehind').1.symm hne
      | char _ _ _ htail => exact ih hbehind htail
      | escape _ _ | legacyEscape _ _ _ | lineContinuation _ _ => exact absurd rfl hnotBackslash
  | escape hescape _ ih =>
      cases h' with
      | nil => exact absurd (List.cons.inj hbehind').1 hquote
      | char _ hne _ _ => exact absurd rfl hne
      | escape hescape' htail =>
          obtain ⟨rfl, rfl⟩ := hbackslash strict (.shared hescape) (.shared hescape')
          rw [ih hbehind htail]
      | legacyEscape hstrict hescape' htail =>
          obtain ⟨rfl, rfl⟩ := hbackslash _ (.shared hescape) (.legacy hstrict hescape')
          rw [ih hbehind htail, Bool.false_or]
      | lineContinuation hline htail =>
          obtain ⟨rfl, rfl⟩ :=
            hbackslash strict (.shared hescape) (.lineContinuation hline)
          rw [ih hbehind htail, Bool.false_or]
  | legacyEscape hstrict hescape _ ih =>
      cases h' with
      | nil => exact absurd (List.cons.inj hbehind').1 hquote
      | char _ hne _ _ => exact absurd rfl hne
      | escape hescape' htail =>
          obtain ⟨rfl, rfl⟩ := hbackslash _ (.legacy hstrict hescape) (.shared hescape')
          rw [ih hbehind htail, Bool.false_or]
      | legacyEscape hstrict' hescape' htail =>
          obtain ⟨-, rfl⟩ := hbackslash _ (.legacy hstrict hescape) (.legacy hstrict' hescape')
          exact ih hbehind htail
      | lineContinuation hline htail =>
          obtain ⟨-, rfl⟩ := hbackslash _ (.legacy hstrict hescape) (.lineContinuation hline)
          exact ih hbehind htail
  | lineContinuation hline _ ih =>
      cases h' with
      | nil => exact absurd (List.cons.inj hbehind').1 hquote
      | char _ hne _ _ => exact absurd rfl hne
      | escape hescape' htail =>
          obtain ⟨rfl, rfl⟩ :=
            hbackslash strict (.lineContinuation hline) (.shared hescape')
          rw [ih hbehind htail, Bool.false_or]
      | legacyEscape hstrict' hescape' htail =>
          obtain ⟨-, rfl⟩ := hbackslash _ (.lineContinuation hline) (.legacy hstrict' hescape')
          exact ih hbehind htail
      | lineContinuation hline' htail =>
          obtain ⟨-, rfl⟩ :=
            hbackslash strict (.lineContinuation hline) (.lineContinuation hline')
          exact ih hbehind htail

end BoaLigero.Lexer
