import BoaLigero.Parser.StringLiteral
import BoaLigero.Parser.TemplateChunk

/-!
# Escapes of Strings and Templates

String literals and templates are read as the language specification says, except that the library
parser of hexadecimal digits accepts a plus sign in front of them.

## Main results

* `TemplateCharacters.signed_iff` — a chunk that is cooked has a plus sign in an escape exactly
  where the specification finds what is no escape sequence.
* `stringConforms_iff`, `templateConforms_iff` — the literals that are read as specified.
* `literal_escapes` — both, and escapes have the same value in strings and templates.
-/

namespace BoaLigero.Lexer

variable {signed signed' strict : Bool} {c : ℕ} {input rest middle : List ℕ}
  {raw raw' : List UInt16} {value value' : Option (List UInt16)}

/-! ### The first character -/

theorem TemplateCharacters.length_le (h : TemplateCharacters signed input rest raw value) :
    rest.length ≤ input.length := by
  induction h with
  | nil => exact Nat.le_refl _
  | dollar _ _ ih | char _ _ _ ih => exact ih.trans (Nat.le_succ _)
  | lineTerminator hline _ ih =>
      obtain ⟨c, after, rfl, rfl, -⟩ := hline.exists_first
      exact ih.trans (Nat.le_of_lt (Cursor.length_behind_lt c after))
  | lineContinuation hline _ ih =>
      obtain ⟨c, after, rfl, rfl, -⟩ := hline.exists_first
      exact ih.trans ((Nat.le_of_lt (Cursor.length_behind_lt c after)).trans (Nat.le_succ _))
  | escape _ _ ih | notEscape _ _ ih =>
      rw [List.length_cons, List.length_append]
      omega

theorem TemplateCharacters.of_nil (h : TemplateCharacters signed [] rest raw value) :
    signed = false ∧ value = some [] := by
  generalize htext : ([] : List ℕ) = text at h
  cases h with
  | nil => exact ⟨rfl, rfl⟩
  | dollar _ _ | char _ _ _ | lineContinuation _ _ | escape _ _ | notEscape _ _ => cases htext
  | lineTerminator hline _ =>
      subst htext
      cases hline

/-- Template characters that do not start with a backslash. -/
theorem TemplateCharacters.of_cons (h : TemplateCharacters signed (c :: input) rest raw value)
    (hc : c ≠ 0x5C) :
    rest = c :: input ∧ signed = false ∧ value = some [] ∨
      ∃ raw' value', TemplateCharacters signed (Cursor.behind c input) rest raw' value' ∧
        (value = none ↔ value' = none) := by
  generalize htext : c :: input = text at h
  cases h with
  | nil => exact .inl ⟨rfl, rfl, rfl⟩
  | dollar _ htail =>
      obtain ⟨rfl, rfl⟩ := List.cons.inj htext
      exact .inr ⟨_, _, by rwa [Cursor.behind_of_ne (by decide)], Option.map_eq_none_iff⟩
  | char _ hline htail =>
      obtain ⟨rfl, rfl⟩ := List.cons.inj htext
      have hcr : c ≠ 0x0D := by
        rintro rfl
        exact hline (by decide)
      exact .inr ⟨_, _, by rwa [Cursor.behind_of_ne hcr], Option.map_eq_none_iff⟩
  | lineTerminator hline htail =>
      obtain ⟨c', after, rfl, rfl, -⟩ := hline.exists_first
      obtain ⟨rfl, rfl⟩ := List.cons.inj htext
      exact .inr ⟨_, _, htail, Option.map_eq_none_iff⟩
  | lineContinuation _ _ | escape _ _ | notEscape _ _ =>
      exact absurd (List.cons.inj htext).1 hc

/-- Template characters that start with a backslash. -/
theorem TemplateCharacters.of_backslash
    (h : TemplateCharacters signed (0x5C :: input) rest raw value) :
    rest = 0x5C :: input ∧ signed = false ∧ value = some [] ∨
      (∃ s s' middle v raw' value', IsEscaped true s input middle v ∧
        TemplateCharacters s' middle rest raw' value' ∧ signed = (s || s') ∧
        (value = none ↔ value' = none)) ∨
      ∃ s middle raw' value', IsNotEscape input middle ∧
        TemplateCharacters s middle rest raw' value' ∧ value = none := by
  generalize htext : 0x5C :: input = text at h
  cases h with
  | nil => exact .inl ⟨rfl, rfl, rfl⟩
  | dollar _ _ => cases htext
  | char hc _ _ => exact absurd (List.cons.inj htext).1.symm hc.2.1
  | lineTerminator hline _ =>
      obtain ⟨c, after, rfl, -, hterminator, -⟩ := hline.exists_first
      obtain ⟨rfl, -⟩ := List.cons.inj htext
      exact absurd hterminator (by decide)
  | lineContinuation hline htail =>
      obtain rfl := (List.cons.inj htext).2
      exact .inr (.inl ⟨_, _, _, _, _, _, .lineContinuation hline, htail, (Bool.false_or _).symm,
        Iff.rfl⟩)
  | escape hescape htail =>
      obtain rfl := (List.cons.inj htext).2
      exact .inr (.inl ⟨_, _, _, _, _, _, .shared hescape, htail, rfl, Option.map_eq_none_iff⟩)
  | notEscape hescape htail =>
      obtain rfl := (List.cons.inj htext).2
      exact .inr (.inr ⟨_, _, _, _, hescape, htail, rfl⟩)

/-- What may stand behind a backslash without plus signs is not what is no escape sequence. -/
theorem IsEscaped.not_notEscape {v : Option ℕ} {middle' : List ℕ}
    (h : IsEscaped true false input middle v) : ¬ IsNotEscape input middle' := by
  cases h with
  | shared h => exact h.exclusive
  | legacy hstrict _ => cases hstrict
  | lineContinuation h =>
      obtain ⟨c, after, rfl, -, hline, -⟩ := h.exists_first
      intro hnot
      have hfirst := hnot.first
      rw [IsLineTerminator] at hline
      rw [IsDecimalDigit] at hfirst
      omega

/-- **Plus signs in the escapes of a chunk**: the specification finds what is no escape sequence
there. -/
theorem TemplateCharacters.signed_iff {v : List UInt16}
    (h : TemplateCharacters signed input rest raw (some v))
    (h' : TemplateCharacters false input rest raw' value') : signed = true ↔ value' = none := by
  induction hlen : input.length using Nat.strong_induction_on
    generalizing signed input raw raw' v value' with
  | _ length ih =>
      subst hlen
      cases input with
      | nil =>
          obtain ⟨rfl, -⟩ := h.of_nil
          obtain ⟨-, rfl⟩ := h'.of_nil
          simp
      | cons c input =>
          -- a derivation that goes on leaves less than one that ends
          have hlonger {s : Bool} {middle : List ℕ} {raw : List UInt16}
              {value : Option (List UInt16)}
              (htail : TemplateCharacters s middle (c :: input) raw value)
              (hmiddle : middle.length ≤ input.length) : False := by
            have hle := htail.length_le
            rw [List.length_cons] at hle
            omega
          have hbehind := Cursor.length_behind_le c input
          by_cases hc : c = 0x5C
          · subst hc
            obtain ⟨rfl, rfl, -⟩ | ⟨s, s', middle, w, raw₁, value₁, hescaped, htail, rfl, hvalue⟩ |
              ⟨_, _, _, _, -, -, hnone⟩ := h.of_backslash
            · obtain ⟨-, -, rfl⟩ | ⟨s, s', middle, w, raw₂, value₂, hescaped, htail, -, -⟩ |
                ⟨_, middle, _, _, hnot, htail, -⟩ := h'.of_backslash
              · simp
              · exact (hlonger htail hescaped.length_le).elim
              · obtain ⟨c, t, rfl, -⟩ := hnot.exists_tail
                refine (hlonger htail ?_).elim
                rw [List.length_cons, List.length_append]
                omega
            · obtain ⟨rfl, -, -⟩ | ⟨t, t', middle', w', raw₂, value₂, hescaped', htail', hor, hvalue'⟩ |
                ⟨_, _, _, _, hnot, -, rfl⟩ := h'.of_backslash
              · exact (hlonger htail hescaped.length_le).elim
              · obtain ⟨ht, ht'⟩ := Bool.or_eq_false_iff.mp hor.symm
                subst ht ht'
                obtain ⟨rfl, rfl, -⟩ := hescaped.unique hescaped'
                cases value₁ with
                | none => exact absurd (hvalue.mpr rfl) (Option.some_ne_none v)
                | some v₁ =>
                    rw [Bool.false_or, hvalue']
                    exact ih _ (Nat.lt_succ_of_le hescaped.length_le) htail htail' rfl
              · have hsigned : s = true := by
                  rw [← Bool.not_eq_false]
                  rintro rfl
                  exact hescaped.not_notEscape hnot
                subst hsigned
                simp
            · exact absurd hnone (Option.some_ne_none v)
          · obtain ⟨rfl, rfl, -⟩ | ⟨raw₁, value₁, htail, hvalue⟩ := h.of_cons hc
            · obtain ⟨-, -, rfl⟩ | ⟨raw₂, value₂, htail, -⟩ := h'.of_cons hc
              · simp
              · exact (hlonger htail hbehind).elim
            · obtain ⟨rfl, -, -⟩ | ⟨raw₂, value₂, htail', hvalue'⟩ := h'.of_cons hc
              · exact (hlonger htail hbehind).elim
              · cases value₁ with
                | none => exact absurd (hvalue.mpr rfl) (Option.some_ne_none v)
                | some v₁ =>
                    rw [hvalue']
                    exact ih _ (Nat.lt_succ_of_le hbehind) htail htail' rfl

/-! ### What is read as specified -/

/-- A character of a source text: a code point. -/
abbrev SourceCharacter := Fin 0x110000

/-- A cursor in front of a source text. -/
def Cursor.ofSource (source : List SourceCharacter) (pos : Position) (strict : Bool) : Cursor where
  rest := source.map Fin.val
  pos := pos
  strict := strict

/-- The literal behind an opening quote is read as the specification says: what is accepted, what
is left, and the string value. -/
def StringConforms (terminator : StringTerminator) (strict : Bool) (source : List SourceCharacter) :
    Prop :=
  ∀ pos startPos rest units,
    (∃ token, Delivers (lexStringLiteral terminator (.ofSource source pos strict) startPos) token
      rest ∧ token.literal = units) ↔
      IsStringLiteral strict terminator.code false (source.map Fin.val) rest units

/-- The chunk of a template is read as the specification says: what is accepted, what is left, the
raw value, and the value, which is missing exactly where there is no escape sequence. -/
def TemplateConforms (source : List SourceCharacter) : Prop :=
  ∀ pos strict kind rest raw cooked,
    Delivers (lexTemplateLiteral (.ofSource source pos strict)) (kind, ⟨raw, cooked⟩) rest ↔
      TemplateCharacters false (source.map Fin.val) (kind.terminator ++ rest) raw cooked

/-- The text is a literal in which the digits of an escape have a plus sign in front of them. -/
def SignedString (terminator : StringTerminator) (strict : Bool) (source : List SourceCharacter) :
    Prop :=
  ∃ rest units, IsStringLiteral strict terminator.code true (source.map Fin.val) rest units

/-- The text is a chunk in which the digits of an escape have a plus sign in front of them, and in
which everything else is an escape sequence. -/
def SignedTemplate (source : List SourceCharacter) : Prop :=
  ∃ kind rest raw value, TemplateCharacters true (source.map Fin.val)
    (TemplateKind.terminator kind ++ rest) raw (some value)

theorem stringConforms_iff {terminator : StringTerminator} {source : List SourceCharacter} :
    StringConforms terminator strict source ↔ ¬ SignedString terminator strict source := by
  constructor
  · rintro h ⟨rest, units, hsigned⟩
    have hread := (@lexStringLiteral_iff _ (.ofSource source ⟨1, 1⟩ strict) ⟨1, 1⟩ _ _).mpr ⟨true, hsigned⟩
    have hliteral := (h _ _ _ _).mp hread
    exact Bool.false_ne_true (hliteral.signed_unique terminator_code_ne.2 hsigned)
  · intro h pos startPos rest units
    rw [lexStringLiteral_iff]
    constructor
    · rintro ⟨signed, hliteral⟩
      cases signed with
      | false => exact hliteral
      | true => exact absurd ⟨rest, units, hliteral⟩ h
    · exact fun hliteral => ⟨false, hliteral⟩

theorem source_bound (source : List SourceCharacter) :
    ∀ c ∈ source.map Fin.val, c < 0x110000 := by
  intro c hc
  obtain ⟨d, -, rfl⟩ := List.mem_map.mp hc
  exact d.isLt

theorem terminated_terminator (kind : TemplateKind) (rest : List ℕ) :
    Terminated (kind.terminator ++ rest) := ⟨kind, rest, rfl⟩

/-- The template characters of a text are read with their raw value, and with their value if there
is one. -/
theorem TemplateCharacters.delivers {source : List SourceCharacter} {kind : TemplateKind}
    (h : TemplateCharacters signed (source.map Fin.val) (kind.terminator ++ rest) raw value)
    (pos : Position) (strict : Bool) :
    ∃ chunk, TemplateChunk (source.map Fin.val) (kind.terminator ++ rest) chunk ∧
      Delivers (lexTemplateLiteral (.ofSource source pos strict)) (kind, .new chunk) rest ∧
      asRaw chunk = raw ∧ ∀ v, value = some v → asCooked chunk = some v := by
  obtain ⟨chunk, hchunk, hraw, hcooked⟩ := h.exists_chunk (source_bound source)
  refine ⟨chunk, hchunk, ?_, hraw, fun v hv => hcooked v hv []⟩
  exact (lexTemplateLiteral_iff (source_bound source)).mpr ⟨chunk, hchunk, rfl⟩

theorem templateConforms_iff {source : List SourceCharacter} :
    TemplateConforms source ↔ ¬ SignedTemplate source := by
  constructor
  · rintro h ⟨kind, rest, raw, value, hsigned⟩
    obtain ⟨chunk, -, hread, hraw, hcooked⟩ := hsigned.delivers ⟨1, 1⟩ true
    have hchars := (h _ _ _ _ _ _).mp hread
    rw [show asCooked chunk = some value from hcooked value rfl] at hchars
    exact Option.some_ne_none _ ((hsigned.signed_iff hchars).mp rfl)
  · intro h pos strict kind rest raw cooked
    -- what is cooked has no plus sign
    have hunsigned {chunk : List UInt16} {v : List UInt16}
        (hchunk : TemplateChunk (source.map Fin.val) (kind.terminator ++ rest) chunk)
        (hcooked : asCooked chunk = some v) :
        ∃ raw, TemplateCharacters false (source.map Fin.val) (kind.terminator ++ rest) raw
          (some v) := by
      obtain ⟨signed, raw, w, hw, hchars⟩ :=
        hchunk.exists_cooked (terminated_terminator kind rest) hcooked
      rw [List.nil_append] at hw
      subst hw
      cases signed with
      | false => exact ⟨raw, hchars⟩
      | true => exact absurd ⟨kind, rest, raw, v, hchars⟩ h
    have hspecified {raw : List UInt16} {cooked : Option (List UInt16)}
        (hchars : TemplateCharacters false (source.map Fin.val) (kind.terminator ++ rest) raw
          cooked) :
        Delivers (lexTemplateLiteral (.ofSource source pos strict)) (kind, ⟨raw, cooked⟩) rest := by
      obtain ⟨chunk, hchunk, hread, rfl, hcooked⟩ := hchars.delivers pos strict
      have heq : asCooked chunk = cooked := by
        cases cooked with
        | some v => exact hcooked v rfl
        | none =>
            rw [Option.eq_none_iff_forall_ne_some]
            intro v hv
            obtain ⟨raw, hsome⟩ := hunsigned hchunk hv
            exact Bool.false_ne_true ((hsome.signed_iff hchars).mpr rfl)
      exact heq ▸ hread
    refine ⟨fun hread => ?_, hspecified⟩
    obtain ⟨chunk, hchunk, -⟩ := (lexTemplateLiteral_iff (source_bound source)).mp hread
    obtain ⟨raw', value, hchars⟩ := hchunk.exists_characters (terminated_terminator kind rest)
    obtain ⟨heq, -⟩ := hread.unique (hspecified hchars)
    obtain ⟨rfl, rfl⟩ := TemplateString.mk.inj (Prod.mk.inj heq).2
    exact hchars

/-- An escape that strings and templates share, in both of them. -/
theorem sharedEscape_agrees {text : List SourceCharacter} {v : ℕ}
    (h : IsSharedEscape false (text.map Fin.val) [] v) :
    (∀ terminator strict pos startPos, ∃ token,
      Delivers (lexStringLiteral terminator
        ⟨0x5C :: (text.map Fin.val ++ [terminator.code]), pos, strict⟩ startPos) token [] ∧
        token.literal = utf16EncodeCodePoint v) ∧
      ∀ pos strict, ∃ string,
        Delivers (lexTemplateLiteral ⟨0x5C :: (text.map Fin.val ++ [0x60]), pos, strict⟩)
          (.noSubstitution, string) [] ∧ string.cooked = some (utf16EncodeCodePoint v) := by
  have hshared {middle : List ℕ} (hnext : NextNot IsDecimalDigit middle) :
      IsSharedEscape false (text.map Fin.val ++ middle) middle v := by
    rw [← List.append_nil (text.map Fin.val)] at h
    exact h.change_rest fun _ => hnext
  constructor
  · intro terminator strict pos startPos
    refine lexStringLiteral_iff.mpr ⟨false, ?_⟩
    have hnext : NextNot IsDecimalDigit [terminator.code] := by
      rw [nextNot_cons]
      cases terminator <;> decide
    rw [← List.append_nil (utf16EncodeCodePoint v)]
    exact .escape (hshared hnext) .nil
  · intro pos strict
    have hnext : NextNot IsDecimalDigit [0x60] := (nextNot_cons _).mpr (by decide)
    have hchars := TemplateCharacters.escape (hshared hnext) .nil
    have hbound : ∀ c ∈ 0x5C :: (text.map Fin.val ++ [0x60]), c < 0x110000 := by
      rw [List.forall_mem_cons, List.forall_mem_append]
      exact ⟨by decide, source_bound text, by decide⟩
    obtain ⟨chunk, hchunk, -, hcooked⟩ := hchars.exists_chunk hbound
    refine ⟨.new chunk, (lexTemplateLiteral_iff hbound).mpr ⟨chunk, hchunk, rfl⟩, ?_⟩
    have hvalue : asCookedLoop [] chunk = some ([] ++ (utf16EncodeCodePoint v ++ [])) :=
      hcooked _ rfl []
    rwa [List.nil_append, List.append_nil] at hvalue

/-- **Escapes of string literals and templates.** A literal and a chunk are read as the language
specification says unless the hexadecimal digits of an escape have a plus sign in front of them,
and an escape has the same value in both. -/
theorem literal_escapes (terminator : StringTerminator) (strict : Bool)
    (source text : List SourceCharacter) (v : ℕ) :
    (StringConforms terminator strict source ↔ ¬ SignedString terminator strict source) ∧
      (TemplateConforms source ↔ ¬ SignedTemplate source) ∧
      (IsSharedEscape false (text.map Fin.val) [] v →
        (∀ pos startPos, ∃ token,
          Delivers (lexStringLiteral terminator
            ⟨0x5C :: (text.map Fin.val ++ [terminator.code]), pos, strict⟩ startPos) token [] ∧
            token.literal = utf16EncodeCodePoint v) ∧
          ∀ pos, ∃ string,
            Delivers (lexTemplateLiteral ⟨0x5C :: (text.map Fin.val ++ [0x60]), pos, strict⟩)
              (.noSubstitution, string) [] ∧ string.cooked = some (utf16EncodeCodePoint v)) := by
  refine ⟨stringConforms_iff, templateConforms_iff, fun h => ?_⟩
  obtain ⟨hstring, htemplate⟩ := sharedEscape_agrees h
  exact ⟨hstring terminator strict, fun pos => htemplate pos strict⟩

/-- `"\n"` and the template of the same characters have the same value. -/
theorem literal_escapes_newline :
    IsSharedEscape false [0x6E] [] 0x0A ∧
      (∃ token, Delivers (lexStringLiteral .doubleQuote ⟨[0x5C, 0x6E, 0x22], ⟨1, 2⟩, true⟩ ⟨1, 1⟩)
        token [] ∧ token.literal = [0x0A]) ∧
      ∃ string, Delivers (lexTemplateLiteral ⟨[0x5C, 0x6E, 0x60], ⟨1, 2⟩, true⟩)
        (.noSubstitution, string) [] ∧ string.cooked = some [0x0A] := by
  have h : IsSharedEscape false (([0x6E] : List SourceCharacter).map Fin.val) [] 0x0A :=
    .single (by decide)
  obtain ⟨hstring, htemplate⟩ := (literal_escapes .doubleQuote true [] [0x6E] 0x0A).2.2 h
  exact ⟨h, hstring ⟨1, 2⟩ ⟨1, 1⟩, htemplate ⟨1, 2⟩⟩

/-- `"\u{+41}"` is read as a string literal, and the same chunk is cooked. -/
theorem not_escapes_conform :
    ¬ StringConforms .doubleQuote true [0x5C, 0x75, 0x7B, 0x2B, 0x34, 0x31, 0x7D, 0x22] ∧
      ¬ TemplateConforms [0x5C, 0x75, 0x7B, 0x2B, 0x34, 0x31, 0x7D, 0x60] := by
  have hdigit : AreDigits 16 [0x34, 0x31] [4, 1] :=
    .cons (by rw [IsDigit]; omega) (.cons (by rw [IsDigit]; omega) .nil)
  have hnumeral : IsHexNumeral true [0x2B, 0x34, 0x31] 0x41 := .plus (by decide) hdigit
  have hescape (rest : List ℕ) :
      IsSharedEscape true ([0x75, 0x7B, 0x2B, 0x34, 0x31, 0x7D] ++ rest) rest 0x41 :=
    .codePoint hnumeral (by decide)
  constructor
  · rw [stringConforms_iff, not_not]
    exact ⟨[], [0x41], .escape (hescape _) .nil⟩
  · rw [templateConforms_iff, not_not]
    exact ⟨.noSubstitution, [], _, _, .escape (hescape _) .nil⟩

end BoaLigero.Lexer
