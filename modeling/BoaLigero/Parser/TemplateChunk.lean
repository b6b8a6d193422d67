import BoaLigero.Parser.TemplateLiteral

/-!
# Chunks of Templates

The chunks that the lexer of templates cuts a source text into, and the template characters of the
language specification that they are.

## Main results

* `lexTemplateLiteral_iff` — the chunk that is read.
* `TemplateChunk.exists_characters` — every chunk is a sequence of template characters.
* `TemplateCharacters.asCooked_eq`, `TemplateChunk.exists_cooked` — the cooked string of a chunk is
  the value of its characters, where plus signs are taken in front of hexadecimal digits.
-/

namespace BoaLigero.Lexer

/-- A text up to a place, and the code units that the lexer collects of it. -/
inductive TemplateChunk : List ℕ → List ℕ → List UInt16 → Prop
  | nil {rest} : TemplateChunk rest rest []
  | char {c input rest chunk} (hc : c < 0x110000) (hne : c ≠ 0x60 ∧ c ≠ 0x5C)
      (hdollar : c = 0x24 → NextNot (· = 0x7B) input)
      (htail : TemplateChunk (Cursor.behind c input) rest chunk) :
      TemplateChunk (c :: input) rest (utf16EncodeCodePoint c ++ chunk)
  | escaped {c input rest chunk} (hc : c = 0x60 ∨ c = 0x24 ∨ c = 0x5C)
      (htail : TemplateChunk input rest chunk) :
      TemplateChunk (0x5C :: c :: input) rest (0x5C :: .ofNat c :: chunk)
  | backslash {c input rest chunk} (hc : ¬ (c = 0x60 ∨ c = 0x24 ∨ c = 0x5C))
      (htail : TemplateChunk (c :: input) rest chunk) :
      TemplateChunk (0x5C :: c :: input) rest (0x5C :: chunk)

/-- What ends a chunk. -/
def TemplateKind.terminator : TemplateKind → List ℕ
  | noSubstitution => [0x60]
  | middle => [0x24, 0x7B]

variable {input rest : List ℕ} {chunk buf : List UInt16} {cursor : Cursor} {kind : TemplateKind}
  {string : TemplateString}

/-! ### The lexer -/

/-- A template literal does not end with the input. -/
theorem lexTemplateLoop_nil (h : cursor.rest = []) :
    lexTemplateLoop buf cursor = .error (.unexpectedEof "unterminated template literal") := by
  rw [lexTemplateLoop]
  split
  · rfl
  · next hnext =>
      rw [Cursor.nextChar, Cursor.peekChar, h] at hnext
      cases hnext

/-- The loop, by its next character. -/
theorem lexTemplateLoop_of_rest {ch : ℕ} {after : List ℕ} (h : cursor.rest = ch :: after) :
    lexTemplateLoop buf cursor =
      if ch = 0x60 then .ok ((.noSubstitution, .new buf), cursor.advance)
      else if ch = 0x24 ∧ after.head? = some 0x7B then
        .ok ((.middle, .new buf), cursor.advance.advance)
      else if ch = 0x5C then
        match after.head? with
        | none => .error (.unexpectedEof "unterminated escape sequence in literal")
        | some c =>
            if c = 0x60 ∨ c = 0x24 ∨ c = 0x5C then
              lexTemplateLoop (buf ++ [0x5C] ++ [UInt16.ofNat c]) cursor.advance.advance
            else lexTemplateLoop (buf ++ [0x5C]) cursor.advance
      else lexTemplateLoop (buf ++ utf16EncodeCodePoint ch) cursor.advance := by
  rw [lexTemplateLoop]
  split
  · next hnone => rw [nextChar_of_rest h] at hnone; cases hnone
  · next ch' cursor' hnext =>
      rw [nextChar_of_rest h] at hnext
      cases hnext
      by_cases hquote : ch = 0x60
      · rw [if_pos hquote, if_pos hquote]
      rw [if_neg hquote, if_neg hquote]
      have hpeek (hne : ch ≠ 0x0D) : cursor.advance.peekChar = after.head? := by
        rw [Cursor.peekChar, Cursor.rest_advance_of_ne h hne]
      have hnextIf (hne : ch ≠ 0x0D) : cursor.advance.nextIf 0x7B =
          if after.head? = some 0x7B then (true, cursor.advance.advance)
          else (false, cursor.advance) := by
        rw [Cursor.nextIf, hpeek hne]
      by_cases hdollar : ch = 0x24
      · rw [hnextIf (by omega)]
        by_cases hbrace : after.head? = some 0x7B
        · simp only [hdollar, hbrace, if_true, and_self]
        · have hne : ¬ (0x24 : ℕ) = 0x5C := by decide
          simp only [hdollar, hbrace, if_false, Bool.false_eq_true, and_false, hne,
            pushCodePoint_eq]
      · simp only [hdollar, false_and, if_false]
        by_cases hbackslash : ch = 0x5C
        · rw [if_pos hbackslash, if_pos hbackslash]
          have hnext := hpeek (by omega)
          split
          · next hnone =>
              rw [hnext] at hnone
              rw [hnone]
          · next c hsome =>
              rw [hnext] at hsome
              rw [hsome]
        · rw [if_neg hbackslash, if_neg hbackslash, pushCodePoint_eq]

/-- What is read is a chunk of the grammar, up to its terminator, and its code units are kept. -/
theorem lexTemplateLoop_sound (hbound : ∀ c ∈ cursor.rest, c < 0x110000)
    (h : Delivers (lexTemplateLoop buf cursor) (kind, string) rest) :
    ∃ chunk, TemplateChunk cursor.rest (kind.terminator ++ rest) chunk ∧
      string = .new (buf ++ chunk) := by
  induction hlen : cursor.rest.length using Nat.strong_induction_on generalizing buf cursor with
  | _ length ih =>
      subst hlen
      cases hrest : cursor.rest with
      | nil =>
          rw [lexTemplateLoop_nil hrest] at h
          exact absurd h not_delivers_error
      | cons ch after =>
          have hlt : cursor.advance.rest.length < cursor.rest.length :=
            length_nextChar_lt (nextChar_of_rest hrest)
          have hadvance := Cursor.rest_advance hrest
          rw [hrest, List.forall_mem_cons] at hbound
          have hbound' : ∀ c ∈ Cursor.behind ch after, c < 0x110000 := by
            rw [Cursor.behind]
            split
            · exact fun c hc => hbound.2 c (List.mem_of_mem_tail hc)
            · exact hbound.2
          rw [lexTemplateLoop_of_rest hrest] at h
          split_ifs at h with hquote hdollar hbackslash
          · rw [delivers_ok, hadvance, Cursor.behind_of_ne (by omega)] at h
            obtain ⟨heq, rfl⟩ := h
            cases heq
            exact ⟨[], hquote ▸ .nil, by rw [List.append_nil]⟩
          · obtain ⟨rfl, hbrace⟩ := hdollar
            obtain ⟨after, rfl⟩ := List.head?_eq_some_iff.mp hbrace
            rw [Cursor.behind_of_ne (by decide)] at hadvance
            rw [delivers_ok, Cursor.rest_advance_of_ne hadvance (by decide)] at h
            obtain ⟨heq, rfl⟩ := h
            cases heq
            exact ⟨[], .nil, by rw [List.append_nil]⟩
          · subst hbackslash
            rw [Cursor.behind_of_ne (by decide)] at hadvance hbound'
            cases after with
            | nil => exact absurd h not_delivers_error
            | cons c after =>
                simp only [List.head?_cons] at h
                rw [List.forall_mem_cons] at hbound'
                split_ifs at h with hc
                · have hlt' : cursor.advance.advance.rest.length < cursor.rest.length :=
                    (length_nextChar_lt (nextChar_of_rest hadvance)).trans hlt
                  have hadvance' := Cursor.rest_advance_of_ne hadvance (by omega)
                  obtain ⟨chunk, hchunk, rfl⟩ :=
                    ih _ hlt' (by rw [hadvance']; exact hbound'.2) h rfl
                  rw [hadvance'] at hchunk
                  exact ⟨_, .escaped hc hchunk, by simp only [List.append_assoc]; rfl⟩
                · obtain ⟨chunk, hchunk, rfl⟩ := ih _ hlt
                    (by rw [hadvance, List.forall_mem_cons]; exact hbound') h rfl
                  rw [hadvance] at hchunk
                  exact ⟨_, .backslash hc hchunk, by rw [List.append_assoc]; rfl⟩
          · obtain ⟨chunk, hchunk, rfl⟩ := ih _ hlt (by rw [hadvance]; exact hbound') h rfl
            rw [hadvance] at hchunk
            refine ⟨_, .char hbound.1 ⟨hquote, hbackslash⟩ ?_ hchunk, by rw [List.append_assoc]⟩
            rintro rfl c hc rfl
            exact hdollar ⟨rfl, hc⟩

/-- A chunk of the grammar with its terminator is read, and its code units are added to those
before. -/
theorem lexTemplateLoop_complete (h : TemplateChunk input (kind.terminator ++ rest) chunk)
    (hinput : cursor.rest = input) (buf : List UInt16) :
    Delivers (lexTemplateLoop buf cursor) (kind, .new (buf ++ chunk)) rest := by
  generalize hbehind : kind.terminator ++ rest = behind at h
  induction h generalizing cursor buf with
  | nil =>
      subst hbehind
      rw [List.append_nil]
      cases kind with
      | noSubstitution =>
          rw [lexTemplateLoop_of_rest hinput, if_pos rfl]
          exact ⟨_, rfl, Cursor.rest_advance_of_ne hinput (by decide)⟩
      | middle =>
          have hadvance := Cursor.rest_advance_of_ne hinput (by decide)
          rw [lexTemplateLoop_of_rest hinput, if_neg (by decide), if_pos ⟨rfl, rfl⟩]
          exact ⟨_, rfl, Cursor.rest_advance_of_ne hadvance (by decide)⟩
  | @char c input _ _ _ hne hdollar _ ih =>
      have hdollar' : ¬ (c = 0x24 ∧ input.head? = some 0x7B) := fun h =>
        hdollar h.1 _ h.2 rfl
      rw [lexTemplateLoop_of_rest hinput, if_neg hne.1, if_neg hdollar', if_neg hne.2,
        ← List.append_assoc]
      exact ih (Cursor.rest_advance hinput) _ hbehind
  | @escaped c input _ chunk hc _ ih =>
      have hadvance := Cursor.rest_advance_of_ne hinput (by decide)
      have hassoc : buf ++ 0x5C :: .ofNat c :: chunk = buf ++ [0x5C] ++ [.ofNat c] ++ chunk := by
        simp only [List.append_assoc]
        rfl
      rw [lexTemplateLoop_of_rest hinput, if_neg (by decide), if_neg fun h => by omega,
        if_pos rfl, hassoc]
      simp only [List.head?_cons, if_pos hc]
      exact ih (Cursor.rest_advance_of_ne hadvance (by omega)) _ hbehind
  | @backslash c input _ chunk hc _ ih =>
      have hadvance := Cursor.rest_advance_of_ne hinput (by decide)
      have hassoc : buf ++ 0x5C :: chunk = buf ++ [0x5C] ++ chunk := by
        rw [List.append_assoc]
        rfl
      rw [lexTemplateLoop_of_rest hinput, if_neg (by decide), if_neg fun h => by omega,
        if_pos rfl, hassoc]
      simp only [List.head?_cons, if_neg hc]
      exact ih hadvance _ hbehind

/-- **The chunk that is read.** -/
theorem lexTemplateLiteral_iff (hbound : ∀ c ∈ cursor.rest, c < 0x110000) :
    Delivers (lexTemplateLiteral cursor) (kind, string) rest ↔
      ∃ chunk, TemplateChunk cursor.rest (kind.terminator ++ rest) chunk ∧ string = .new chunk := by
  constructor
  · intro h
    obtain ⟨chunk, hchunk, rfl⟩ := lexTemplateLoop_sound hbound h
    exact ⟨chunk, hchunk, by rw [List.nil_append]⟩
  · rintro ⟨chunk, hchunk, rfl⟩
    have hread := lexTemplateLoop_complete hchunk rfl []
    rwa [List.nil_append] at hread

/-! ### Code units -/

variable {c : ℕ}

/-- A code point of the basic plane is one code unit. -/
theorem utf16EncodeCodePoint_of_lt (h : c < 0x10000) : utf16EncodeCodePoint c = [.ofNat c] :=
  if_pos (by omega)

/-- A code point of two units is a pair of surrogates. -/
theorem utf16EncodeCodePoint_of_ge (h : 0x10000 ≤ c) (hc : c < 0x110000) :
    ∃ leading trailing : UInt16, utf16EncodeCodePoint c = [leading, trailing] ∧
      0xD800 ≤ leading.toNat ∧ leading.toNat < 0xDC00 ∧ 0xDC00 ≤ trailing.toNat ∧
      trailing.toNat < 0xE000 := by
  refine ⟨_, _, if_neg (by omega), ?_⟩
  simp only [UInt16.toNat_ofNat']
  omega

/-- A number of 16 bits is that of its code unit. -/
theorem toNat_ofNat_of_lt (h : c < 0x10000) : (UInt16.ofNat c).toNat = c := by
  rw [UInt16.toNat_ofNat']
  omega

/-- A unit of a character is that character, or a surrogate. -/
theorem mem_utf16EncodeCodePoint (hc : c < 0x110000) {u : UInt16}
    (hu : u ∈ utf16EncodeCodePoint c) : u.toNat = c ∨ 0xD800 ≤ u.toNat ∧ u.toNat < 0xE000 := by
  obtain hlt | hge := Nat.lt_or_ge c 0x10000
  · rw [utf16EncodeCodePoint_of_lt hlt, List.mem_singleton] at hu
    exact .inl (hu ▸ toNat_ofNat_of_lt hlt)
  · obtain ⟨leading, trailing, heq, hleading, hleading', htrailing, htrailing'⟩ :=
      utf16EncodeCodePoint_of_ge hge hc
    rw [heq, List.mem_cons, List.mem_singleton] at hu
    rcases hu with rfl | rfl <;> omega

/-- A unit of a character is no ASCII character, unless it is that character. -/
theorem unit_ne (hc : c < 0x110000) {u : UInt16} (hu : u ∈ utf16EncodeCodePoint c)
    (ascii : UInt16) (hascii : ascii.toNat < 0x80) (hne : c ≠ ascii.toNat) : u ≠ ascii := by
  rintro rfl
  have hcases := mem_utf16EncodeCodePoint hc hu
  omega

/-- The code units of a code point are not normalised, unless it is a carriage return. -/
theorem normalize_utf16EncodeCodePoint (hc : c < 0x110000) (hne : c ≠ 0x0D) :
    (utf16EncodeCodePoint c).map normalizeUnit = utf16EncodeCodePoint c := by
  conv_rhs => rw [← List.map_id (utf16EncodeCodePoint c)]
  refine List.map_congr_left fun u hu => ?_
  rw [normalizeUnit, if_neg (unit_ne hc hu 0x0D (by decide) hne), id]

/-- The units of a text of code points with one unit each are that text. -/
theorem numbers_codeUnits {text : List ℕ} (h : ∀ c ∈ text, c < 0x10000) :
    numbers (codeUnits text) = text := by
  induction text with
  | nil => rfl
  | cons c text ih =>
      rw [List.forall_mem_cons] at h
      rw [codeUnits, List.flatMap_cons, numbers_append, utf16EncodeCodePoint_of_lt h.1]
      exact congrArg₂ List.cons (toNat_ofNat_of_lt h.1) (ih h.2)

/-! ### The cooked string -/

/-- A code unit other than a backslash is cooked to itself, normalised. -/
theorem asCookedLoop_cons {ch : UInt16} (h : ch ≠ 0x5C) (buf iter : List UInt16) :
    asCookedLoop buf (ch :: iter) = asCookedLoop (buf ++ [normalizeUnit ch]) iter := by
  rw [asCookedLoop, if_neg h, ← pushCodePoint_normalize]
  split <;> rfl

/-- At the end of the text all is cooked. -/
theorem asCookedLoop_nil (buf : List UInt16) : asCookedLoop buf [] = some buf := by
  rw [asCookedLoop]

/-- What follows on a backslash is cooked as an escape sequence, or the whole is not. -/
theorem asCookedLoop_backslash (buf iter : List UInt16) :
    asCookedLoop buf (0x5C :: iter) =
      match cookEscape iter with
      | none => none
      | some (escapeValue, iter) =>
          asCookedLoop (buf ++ (escapeValue.map utf16EncodeCodePoint).getD []) iter := by
  rw [asCookedLoop, if_pos rfl]
  split
  · next h => rw [h]
  · next iter' h =>
      rw [h]
      simp only [Option.map_none, Option.getD_none, List.append_nil]
  · next escapeValue iter' h =>
      rw [h, pushCodePoint_eq]
      rfl

/-- A character that is not replaced is cooked as it is. -/
theorem asCookedLoop_char (hc : c < 0x110000) (hne : c ≠ 0x5C) (hcr : c ≠ 0x0D)
    (buf chunk : List UInt16) :
    asCookedLoop buf (utf16EncodeCodePoint c ++ chunk) =
      asCookedLoop (buf ++ utf16EncodeCodePoint c) chunk := by
  have hunits : ∀ units : List UInt16, (∀ u ∈ units, u ≠ 0x5C) → ∀ buf,
      asCookedLoop buf (units ++ chunk) = asCookedLoop (buf ++ units.map normalizeUnit) chunk := by
    intro units
    induction units with
    | nil => exact fun _ buf => by rw [List.map_nil, List.append_nil, List.nil_append]
    | cons u units ih =>
        intro h buf
        rw [List.forall_mem_cons] at h
        rw [List.cons_append, asCookedLoop_cons h.1, ih h.2, List.append_assoc]
        rfl
  rw [hunits _ (fun u hu => unit_ne hc hu 0x5C (by decide) hne), normalize_utf16EncodeCodePoint hc hcr]

/-! ### The chunk of template characters -/

variable {signed : Bool} {text middle t : List ℕ} {raw : List UInt16}
  {value : Option (List UInt16)} {v : ℕ}

/-- Characters that a chunk has as they are. -/
theorem TemplateChunk.plain (ht : ∀ c ∈ t, IsEscapeTail c) (h : TemplateChunk middle rest chunk) :
    TemplateChunk (t ++ middle) rest (codeUnits t ++ chunk) := by
  induction t with
  | nil => exact h
  | cons c t ih =>
      rw [List.forall_mem_cons] at ht
      obtain ⟨hc, ht⟩ := ht
      rw [IsEscapeTail, IsHexDigit] at hc
      rw [codeUnits, List.flatMap_cons, List.append_assoc, List.cons_append]
      refine .char (by omega) (by omega) (fun heq => by omega) ?_
      rw [Cursor.behind_of_ne (by omega)]
      exact ih ht

/-- A backslash with what follows it. -/
theorem TemplateChunk.escape (hc : c < 0x110000) (hcr : c ≠ 0x0D) (ht : ∀ c ∈ t, IsEscapeTail c)
    (hspecial : c = 0x60 ∨ c = 0x24 ∨ c = 0x5C → t = []) (h : TemplateChunk middle rest chunk) :
    TemplateChunk (0x5C :: (c :: t ++ middle)) rest (0x5C :: (codeUnits (c :: t) ++ chunk)) := by
  have htail := h.plain ht
  by_cases hspecial' : c = 0x60 ∨ c = 0x24 ∨ c = 0x5C
  · obtain rfl := hspecial hspecial'
    rw [codeUnits, List.flatMap_cons, utf16EncodeCodePoint_of_lt (by omega)]
    exact .escaped hspecial' h
  · rw [codeUnits, List.flatMap_cons, List.append_assoc]
    refine .backslash hspecial' (.char hc (by omega) (fun heq => by omega) ?_)
    rw [Cursor.behind_of_ne hcr]
    exact htail

/-- A chunk starts with a digit only where its text does. -/
theorem TemplateChunk.nextNot (h : TemplateChunk input rest chunk)
    (hnext : NextNot IsDecimalDigit input) : NextNot IsDecimalDigit (numbers chunk) := by
  rw [nextNot_numbers_iff]
  intro u hu hdigit
  rw [IsDecimalDigit] at hdigit
  cases h with
  | nil => cases hu
  | @char c _ _ chunk hc _ _ _ =>
      rw [nextNot_cons, IsDecimalDigit] at hnext
      have hmem : u ∈ utf16EncodeCodePoint c := by
        obtain hlt | hge := Nat.lt_or_ge c 0x10000
        · rw [utf16EncodeCodePoint_of_lt hlt] at hu ⊢
          cases hu
          exact List.mem_singleton_self _
        · obtain ⟨leading, trailing, heq, -⟩ := utf16EncodeCodePoint_of_ge hge hc
          rw [heq] at hu ⊢
          cases hu
          exact List.mem_cons_self
      rcases mem_utf16EncodeCodePoint hc hmem with heq | hsurrogate
      · exact hnext (heq ▸ hdigit)
      · omega
  | escaped _ _ | backslash _ _ =>
      cases hu
      exact absurd hdigit (by decide)

/-- The first character of a line terminator, and what it leaves. -/
theorem IsLineTerminatorSequence.exists_first {unit : UInt16}
    (h : IsLineTerminatorSequence input middle unit) :
    ∃ c after, input = c :: after ∧ Cursor.behind c after = middle ∧ IsLineTerminator c ∧
      normalizeUnit (.ofNat c) = unit := by
  cases h with
  | lf | ls | ps | crLf => exact ⟨_, _, rfl, rfl, by decide, rfl⟩
  | cr hnext => exact ⟨_, _, rfl, if_neg fun hboth => hnext _ hboth.2 rfl, by decide, rfl⟩

/-- The raw value of two parts is that of the one, and then of the other. -/
theorem asRaw_append (units units' : List UInt16) : asRaw (units ++ units') = asRaw units ++ asRaw units' := by
  rw [asRaw_eq, asRaw_eq, asRaw_eq, List.map_append]

/-- A text without carriage returns is its own raw string. -/
theorem asRaw_codeUnits (hbound : ∀ c ∈ text, c < 0x110000) (hcr : 0x0D ∉ text) :
    asRaw (codeUnits text) = codeUnits text := by
  induction text with
  | nil => rfl
  | cons c text ih =>
      rw [List.forall_mem_cons] at hbound
      rw [List.mem_cons, not_or] at hcr
      rw [codeUnits, List.flatMap_cons, asRaw_append, asRaw_eq,
        normalize_utf16EncodeCodePoint hbound.1 (Ne.symm hcr.1)]
      exact congrArg _ (ih hbound.2 hcr.2)

/-- The escapes of a chunk are those of its text. -/
theorem asCookedLoop_escape (hescape : IsSharedEscape signed (text ++ middle) middle v)
    (hbound : ∀ c ∈ text, c < 0x110000) (h : TemplateChunk middle rest chunk) (buf : List UInt16) :
    asCookedLoop buf (0x5C :: (codeUnits text ++ chunk)) =
      asCookedLoop (buf ++ utf16EncodeCodePoint v) chunk := by
  obtain ⟨c, t, htext, ht, hspecial⟩ := hescape.exists_tail
  obtain rfl : text = c :: t := List.append_cancel_right htext
  rw [List.forall_mem_cons] at hbound
  obtain hlt | hge := Nat.lt_or_ge c 0x10000
  · have hbmp : ∀ d ∈ c :: t, d < 0x10000 := by
      rw [List.forall_mem_cons]
      refine ⟨hlt, fun d hd => ?_⟩
      have hd := ht d hd
      rw [IsEscapeTail, IsHexDigit] at hd
      omega
    have hunits : IsSharedEscape signed (numbers (codeUnits (c :: t) ++ chunk)) (numbers chunk) v := by
      rw [numbers_append, numbers_codeUnits hbmp]
      exact hescape.change_rest h.nextNot
    rw [asCookedLoop_backslash, cookEscape_of_shared hunits]
    rfl
  · -- the surrogates of a character that stands for itself are cooked one by one
    have hnil : t = [] := hspecial.resolve_right (by omega)
    subst hnil
    obtain ⟨leading, trailing, heq, hleading, hleading', htrailing, htrailing'⟩ :=
      utf16EncodeCodePoint_of_ge hge hbound.1
    have hv : v = c := by
      clear hbound
      generalize hinput : [c] ++ middle = input at hescape
      cases hescape with
      | single hc =>
          have hall : ∀ e ∈ singleEscapes, e.1 < 0x10000 := by decide
          have hlt := hall _ hc
          have heq := (List.cons.inj hinput).1
          omega
      | nonEscape _ => exact (List.cons.inj hinput).1.symm
      | nul _ | hex _ _ | hex4 _ _ | codePoint _ _ =>
          have heq := (List.cons.inj hinput).1
          omega
    subst hv
    have hunits : IsSharedEscape false (numbers (leading :: trailing :: chunk))
        (numbers (trailing :: chunk)) leading.toNat := by
      refine .nonEscape ⟨fun w hw => ?_, ?_, by omega, by omega, ?_⟩
      · have hall : ∀ e ∈ singleEscapes, e.1 < 0x80 := by decide
        have := hall _ hw
        omega
      · rw [IsDecimalDigit]
        omega
      · rw [IsLineTerminator]
        omega
    have hne : trailing ≠ 0x5C := by
      rintro rfl
      exact absurd htrailing (by decide)
    have hnormal : normalizeUnit trailing = trailing := if_neg (by
      rintro rfl
      exact absurd htrailing (by decide))
    have hleadingUnit : utf16EncodeCodePoint leading.toNat = [leading] := by
      rw [utf16EncodeCodePoint_of_lt leading.toNat_lt, UInt16.ofNat_toNat]
    have hchunk : codeUnits [v] ++ chunk = leading :: trailing :: chunk := by
      rw [codeUnits, List.flatMap_singleton, heq]
      rfl
    rw [hchunk, asCookedLoop_backslash, cookEscape_of_shared hunits]
    simp only [Option.map_some, Option.getD_some, hleadingUnit]
    rw [asCookedLoop_cons hne, hnormal, heq, List.append_assoc]
    rfl

/-- A line terminator is one code unit, and no backslash. -/
theorem IsLineTerminator.lt (h : IsLineTerminator c) : c < 0x10000 ∧ c ≠ 0x5C := by
  rw [IsLineTerminator] at h
  omega

/-- The line terminators of a chunk. -/
theorem TemplateChunk.lineTerminator {unit : UInt16}
    (hline : IsLineTerminatorSequence input middle unit) (h : TemplateChunk middle rest chunk) :
    ∃ u, TemplateChunk input rest (u :: chunk) ∧ normalizeUnit u = unit ∧ u ≠ 0x5C ∧
      IsLineTerminator u.toNat ∧ TemplateChunk (0x5C :: input) rest (0x5C :: u :: chunk) := by
  obtain ⟨c, after, rfl, rfl, hc, hunit⟩ := hline.exists_first
  obtain ⟨hlt, hne⟩ := hc.lt
  have hnat := toNat_ofNat_of_lt hlt
  have hchunk : TemplateChunk (c :: after) rest (.ofNat c :: chunk) := by
    have hchar := TemplateChunk.char (c := c) (by omega) ⟨by rw [IsLineTerminator] at hc; omega, hne⟩
      (fun heq => absurd hc (by rw [heq]; decide)) h
    rwa [utf16EncodeCodePoint_of_lt hlt] at hchar
  refine ⟨.ofNat c, hchunk, hunit, ?_, by rwa [hnat], .backslash ?_ hchunk⟩
  · rintro heq
    rw [heq] at hnat
    exact hne hnat.symm
  · rw [IsLineTerminator] at hc
    omega

/-- What is left behind a line terminator was there. -/
theorem IsLineTerminatorSequence.mem_of_mem {unit : UInt16}
    (h : IsLineTerminatorSequence input middle unit) (hc : c ∈ middle) : c ∈ input := by
  cases h with
  | lf | ls | ps | cr _ => exact List.mem_cons_of_mem _ hc
  | crLf => exact List.mem_cons_of_mem _ (List.mem_cons_of_mem _ hc)

/-- A backslash with what follows it, and the raw string. -/
theorem TemplateChunk.escape_raw (hbound : ∀ d ∈ c :: t, d < 0x110000) (hcr : c ≠ 0x0D)
    (ht : ∀ c ∈ t, IsEscapeTail c) (hspecial : c = 0x60 ∨ c = 0x24 ∨ c = 0x5C → t = [])
    (h : TemplateChunk middle rest chunk) :
    TemplateChunk (0x5C :: (c :: t ++ middle)) rest (0x5C :: (codeUnits (c :: t) ++ chunk)) ∧
      asRaw (0x5C :: (codeUnits (c :: t) ++ chunk)) =
        0x5C :: (codeUnits (c :: t) ++ asRaw chunk) := by
  refine ⟨.escape (hbound c List.mem_cons_self) hcr ht hspecial h, ?_⟩
  have hnot : 0x0D ∉ c :: t := by
    rw [List.mem_cons, not_or]
    exact ⟨Ne.symm hcr, fun hmem => absurd (ht _ hmem) (by decide)⟩
  have hbackslash : asRaw [0x5C] = [0x5C] := rfl
  rw [← List.singleton_append, asRaw_append, asRaw_append, hbackslash,
    asRaw_codeUnits hbound hnot]
  rfl

/-- A shared escape sequence is part of a chunk, and is itself in the raw value. -/
theorem TemplateChunk.sharedEscape (hescape : IsSharedEscape signed (text ++ middle) middle v)
    (hbound : ∀ c ∈ text, c < 0x110000) (h : TemplateChunk middle rest chunk) :
    TemplateChunk (0x5C :: (text ++ middle)) rest (0x5C :: (codeUnits text ++ chunk)) ∧
      asRaw (0x5C :: (codeUnits text ++ chunk)) = 0x5C :: (codeUnits text ++ asRaw chunk) := by
  obtain ⟨c, t, htext, ht, hspecial⟩ := hescape.exists_tail
  obtain rfl : text = c :: t := List.append_cancel_right htext
  have hcr : c ≠ 0x0D := fun heq => hescape.first (heq ▸ by decide)
  exact h.escape_raw hbound hcr ht fun hc => hspecial.resolve_right (by omega)

/-- What is no escape sequence is part of a chunk, and is itself in the raw value. -/
theorem TemplateChunk.notEscape (hescape : IsNotEscape (text ++ middle) middle)
    (hbound : ∀ c ∈ text, c < 0x110000) (h : TemplateChunk middle rest chunk) :
    TemplateChunk (0x5C :: (text ++ middle)) rest (0x5C :: (codeUnits text ++ chunk)) ∧
      asRaw (0x5C :: (codeUnits text ++ chunk)) = 0x5C :: (codeUnits text ++ asRaw chunk) := by
  obtain ⟨c, t, htext, ht⟩ := hescape.exists_tail
  obtain rfl : text = c :: t := List.append_cancel_right htext
  have hfirst := hescape.first
  rw [IsDecimalDigit] at hfirst
  exact h.escape_raw hbound (by omega) ht fun hc => by omega

/-- **The chunk of template characters**, its raw string, and its cooked string. -/
theorem TemplateCharacters.exists_chunk (h : TemplateCharacters signed input rest raw value)
    (hbound : ∀ c ∈ input, c < 0x110000) :
    ∃ chunk, TemplateChunk input rest chunk ∧ asRaw chunk = raw ∧
      ∀ v, value = some v → ∀ buf, asCookedLoop buf chunk = some (buf ++ v) := by
  induction h with
  | nil =>
      refine ⟨[], .nil, rfl, fun v hv buf => ?_⟩
      cases hv
      rw [asCookedLoop_nil, List.append_nil]
  | dollar hnext _ ih =>
      rw [List.forall_mem_cons] at hbound
      obtain ⟨chunk, hchunk, rfl, hcooked⟩ := ih hbound.2
      refine ⟨0x24 :: chunk, .char (by decide) (by decide) (fun _ => hnext) hchunk, ?_, ?_⟩
      · rw [asRaw_eq, asRaw_eq]
        rfl
      · intro v hv buf
        obtain ⟨w, rfl, rfl⟩ := Option.map_eq_some_iff.mp hv
        rw [asCookedLoop_cons (by decide), hcooked w rfl, List.append_assoc]
        rfl
  | @char _ c _ _ _ _ hc hline _ ih =>
      rw [List.forall_mem_cons] at hbound
      obtain ⟨chunk, hchunk, rfl, hcooked⟩ := ih hbound.2
      have hcr : c ≠ 0x0D := fun heq => hline (heq ▸ by decide)
      refine ⟨utf16EncodeCodePoint c ++ chunk, ?_, ?_, ?_⟩
      · refine .char hbound.1 ⟨hc.1, hc.2.1⟩ (fun heq => absurd heq hc.2.2) ?_
        rwa [Cursor.behind_of_ne hcr]
      · rw [asRaw_append, asRaw_eq, normalize_utf16EncodeCodePoint hbound.1 hcr]
      · intro v hv buf
        obtain ⟨w, rfl, rfl⟩ := Option.map_eq_some_iff.mp hv
        rw [asCookedLoop_char hbound.1 hc.2.1 hcr, hcooked w rfl, List.append_assoc]
  | lineTerminator hline _ ih =>
      obtain ⟨chunk, hchunk, rfl, hcooked⟩ := ih fun c hc => hbound c (hline.mem_of_mem hc)
      obtain ⟨u, hu, hunit, hne, -, -⟩ := hchunk.lineTerminator hline
      refine ⟨u :: chunk, hu, ?_, ?_⟩
      · rw [asRaw_eq, asRaw_eq, List.map_cons, hunit]
      · intro v hv buf
        obtain ⟨w, rfl, rfl⟩ := Option.map_eq_some_iff.mp hv
        rw [asCookedLoop_cons hne, hunit, hcooked w rfl, List.append_assoc]
        rfl
  | lineContinuation hline _ ih =>
      rw [List.forall_mem_cons] at hbound
      obtain ⟨chunk, hchunk, rfl, hcooked⟩ := ih fun c hc => hbound.2 c (hline.mem_of_mem hc)
      obtain ⟨u, -, hunit, -, hterminator, hu⟩ := hchunk.lineTerminator hline
      refine ⟨0x5C :: u :: chunk, hu, ?_, ?_⟩
      · rw [asRaw_eq, asRaw_eq, List.map_cons, List.map_cons, hunit]
        rfl
      · intro v hv buf
        have hcontinuation : cookEscape (u :: chunk) = some (none, chunk) :=
          cookEscape_none_iff.mpr ⟨u, rfl, hterminator⟩
        rw [asCookedLoop_backslash, hcontinuation]
        simp only [Option.map_none, Option.getD_none, List.append_nil]
        exact hcooked v hv buf
  | @escape _ _ text _ _ v _ _ hescape _ ih =>
      rw [List.forall_mem_cons, List.forall_mem_append] at hbound
      obtain ⟨-, htext, hmiddle⟩ := hbound
      obtain ⟨chunk, hchunk, rfl, hcooked⟩ := ih hmiddle
      obtain ⟨hplain, hraw⟩ := hchunk.sharedEscape hescape htext
      refine ⟨_, hplain, hraw, ?_⟩
      intro v' hv buf
      obtain ⟨w, rfl, rfl⟩ := Option.map_eq_some_iff.mp hv
      rw [asCookedLoop_escape hescape htext hchunk, hcooked w rfl, List.append_assoc]
  | @notEscape _ text _ _ _ _ hescape _ ih =>
      rw [List.forall_mem_cons, List.forall_mem_append] at hbound
      obtain ⟨-, htext, hmiddle⟩ := hbound
      obtain ⟨chunk, hchunk, rfl, -⟩ := ih hmiddle
      obtain ⟨hplain, hraw⟩ := hchunk.notEscape hescape htext
      exact ⟨_, hplain, hraw, fun v hv => nomatch hv⟩

/-! ### The template characters of a chunk -/

/-- The text goes on with what ends a chunk. -/
def Terminated (rest : List ℕ) : Prop := ∃ kind after, rest = TemplateKind.terminator kind ++ after

/-- What ends a chunk starts with one of two characters. -/
theorem Terminated.first (h : Terminated (c :: rest)) : c = 0x60 ∨ c = 0x24 := by
  obtain ⟨kind, after, heq⟩ := h
  cases kind with
  | noSubstitution => exact .inl (List.cons.inj heq).1
  | middle => exact .inr (List.cons.inj heq).1

/-- A character that does not end a chunk is in it. -/
theorem TemplateChunk.of_cons (h : TemplateChunk (c :: input) rest chunk) (hrest : Terminated rest)
    (hc : ¬ (c = 0x60 ∨ c = 0x24 ∨ c = 0x5C)) :
    ∃ chunk', chunk = utf16EncodeCodePoint c ++ chunk' ∧ c < 0x110000 ∧
      TemplateChunk (Cursor.behind c input) rest chunk' := by
  cases h with
  | nil =>
      have hfirst := hrest.first
      omega
  | char hlt _ _ htail => exact ⟨_, rfl, hlt, htail⟩
  | escaped _ _ | backslash _ _ => omega

/-- What may follow in an escape sequence is a plain ASCII character. -/
theorem IsEscapeTail.plain (h : IsEscapeTail c) :
    ¬ (c = 0x60 ∨ c = 0x24 ∨ c = 0x5C) ∧ c ≠ 0x0D ∧ c < 0x80 := by
  rw [IsEscapeTail, IsHexDigit] at h
  omega

/-- Plain characters can be taken from the front of a chunk. -/
theorem TemplateChunk.of_plain (ht : ∀ c ∈ t, IsEscapeTail c) (hrest : Terminated rest)
    (h : TemplateChunk (t ++ middle) rest chunk) : ∃ chunk', TemplateChunk middle rest chunk' := by
  induction t generalizing chunk with
  | nil => exact ⟨chunk, h⟩
  | cons c t ih =>
      rw [List.forall_mem_cons] at ht
      obtain ⟨hspecial, hcr, -⟩ := ht.1.plain
      obtain ⟨chunk', -, -, htail⟩ := h.of_cons hrest hspecial
      rw [Cursor.behind_of_ne hcr] at htail
      exact ih ht.2 htail

/-- The units of a chunk that are ASCII are the characters of its text. -/
theorem TemplateChunk.of_units {units : List UInt16} (hunits : ∀ u ∈ units, IsEscapeTail u.toNat)
    (h : TemplateChunk input rest (units ++ chunk)) :
    ∃ input', input = numbers units ++ input' ∧ TemplateChunk input' rest chunk := by
  induction units generalizing input with
  | nil => exact ⟨input, rfl, h⟩
  | cons u units ih =>
      rw [List.forall_mem_cons] at hunits
      obtain ⟨hspecial, hcr, hlt⟩ := hunits.1.plain
      generalize hall : u :: units ++ chunk = all at h
      cases h with
      | nil => cases hall
      | @char c input _ chunk' hc _ _ htail =>
          obtain hlt' | hge := Nat.lt_or_ge c 0x10000
          · rw [utf16EncodeCodePoint_of_lt hlt'] at hall
            obtain ⟨rfl, rfl⟩ := List.cons.inj hall
            rw [toNat_ofNat_of_lt hlt'] at hcr
            rw [Cursor.behind_of_ne hcr] at htail
            obtain ⟨input', rfl, htail'⟩ := ih hunits.2 htail
            refine ⟨input', ?_, htail'⟩
            exact congrArg (· :: _) (toNat_ofNat_of_lt hlt').symm
          · obtain ⟨leading, trailing, heq, hleading, -⟩ := utf16EncodeCodePoint_of_ge hge hc
            rw [heq] at hall
            obtain ⟨rfl, -⟩ := List.cons.inj hall
            omega
      | escaped _ _ | backslash _ _ =>
          obtain ⟨rfl, -⟩ := List.cons.inj hall
          exact absurd (.inr (.inr rfl)) hspecial

/-- A text starts with a digit only where its chunk does. -/
theorem TemplateChunk.nextNot_of_numbers (hrest : Terminated rest)
    (h : TemplateChunk input rest chunk) (hnext : NextNot IsDecimalDigit (numbers chunk)) :
    NextNot IsDecimalDigit input := by
  cases input with
  | nil => exact nextNot_nil
  | cons c input =>
      rw [nextNot_cons]
      intro hdigit
      rw [IsDecimalDigit] at hdigit
      obtain ⟨chunk', rfl, -, -⟩ := h.of_cons hrest (by omega)
      rw [utf16EncodeCodePoint_of_lt (by omega), nextNot_numbers_iff] at hnext
      refine hnext _ rfl ?_
      rw [toNat_ofNat_of_lt (by omega)]
      exact hdigit

/-- What is left behind a code point is shorter. -/
theorem Cursor.length_behind_lt (c : ℕ) (input : List ℕ) :
    (Cursor.behind c input).length < (c :: input).length :=
  Nat.lt_succ_of_le (Cursor.length_behind_le c input)

/-- An escape of one character that ends no chunk there. -/
theorem isSharedEscape_special (hc : c = 0x60 ∨ c = 0x24 ∨ c = 0x5C) (input : List ℕ) :
    IsSharedEscape false ([c] ++ input) input c := by
  rcases hc with rfl | rfl | rfl
  · exact .nonEscape ⟨fun v hv => by simp [singleEscapes] at hv, by decide⟩
  · exact .nonEscape ⟨fun v hv => by simp [singleEscapes] at hv, by decide⟩
  · exact .single (by decide)

/-- **Every chunk is a sequence of template characters.** -/
theorem TemplateChunk.exists_characters (h : TemplateChunk input rest chunk)
    (hrest : Terminated rest) :
    ∃ raw value, TemplateCharacters false input rest raw value := by
  induction hlen : input.length using Nat.strong_induction_on generalizing input chunk with
  | _ length ih =>
      subst hlen
      cases h with
      | nil => exact ⟨_, _, .nil⟩
      | @char c input _ chunk _ hne hdollar htail =>
          obtain ⟨raw, value, hchars⟩ := ih _ (Cursor.length_behind_lt c input) htail rfl
          by_cases hline : IsLineTerminator c
          · obtain ⟨unit, hsequence⟩ :=
              isLineTerminatorSequence_behind (isLineTerminator_iff.mpr hline) input
            exact ⟨_, _, .lineTerminator hsequence hchars⟩
          · have hcr : c ≠ 0x0D := by
              rintro rfl
              exact hline (by decide)
            rw [Cursor.behind_of_ne hcr] at hchars
            by_cases heq : c = 0x24
            · subst heq
              exact ⟨_, _, .dollar (hdollar rfl) hchars⟩
            · exact ⟨_, _, .char ⟨hne.1, hne.2, heq⟩ hline hchars⟩
      | @escaped c input _ _ hc htail =>
          obtain ⟨raw, value, hchars⟩ :=
            ih _ ((Nat.lt_succ_self _).trans (Nat.lt_succ_self _)) htail rfl
          exact ⟨_, _, .escape (isSharedEscape_special hc input) hchars⟩
      | @backslash c input _ _ hc htail =>
          obtain ⟨chunk', -, -, hbehind⟩ := htail.of_cons hrest hc
          obtain ⟨middle, unit, hline⟩ | ⟨middle, v, hescape⟩ | ⟨middle, hescape⟩ :=
            exists_escape c input
          · obtain ⟨-, rfl⟩ := behind_of_isLineTerminatorSequence hline
            obtain ⟨raw, value, hchars⟩ :=
              ih _ ((Cursor.length_behind_lt c input).trans (Nat.lt_succ_self _)) hbehind rfl
            exact ⟨_, _, .lineContinuation hline hchars⟩
          · obtain ⟨c', t, htext, ht, -⟩ := hescape.exists_tail
            obtain ⟨rfl, rfl⟩ := List.cons.inj htext
            have hcr : c ≠ 0x0D := by
              rintro rfl
              exact hescape.first (by decide)
            rw [Cursor.behind_of_ne hcr] at hbehind
            obtain ⟨chunk'', hmiddle⟩ := hbehind.of_plain ht hrest
            obtain ⟨raw, value, hchars⟩ := ih _ (by simp; omega) hmiddle rfl
            have hall := TemplateCharacters.escape
              (show IsSharedEscape false ((c :: t) ++ middle) middle v by exact hescape) hchars
            exact ⟨_, _, hall⟩
          · obtain ⟨c', t, htext, ht⟩ := hescape.exists_tail
            obtain ⟨rfl, rfl⟩ := List.cons.inj htext
            have hfirst := hescape.first
            rw [IsDecimalDigit] at hfirst
            rw [Cursor.behind_of_ne (by omega)] at hbehind
            obtain ⟨chunk'', hmiddle⟩ := hbehind.of_plain ht hrest
            obtain ⟨raw, value, hchars⟩ := ih _ (by simp; omega) hmiddle rfl
            have hall := TemplateCharacters.notEscape
              (show IsNotEscape ((c :: t) ++ middle) middle by exact hescape) hchars
            exact ⟨_, _, hall⟩

/-- A code point has at least one code unit. -/
theorem length_utf16EncodeCodePoint_pos (c : ℕ) : 0 < (utf16EncodeCodePoint c).length := by
  rw [utf16EncodeCodePoint]
  split <;> exact Nat.succ_pos _

/-- An escape that is cooked behind a backslash is one of the text. -/
theorem TemplateChunk.exists_escape (hrest : Terminated rest) {u : UInt16} {units iter : List UInt16}
    (h : TemplateChunk input rest units)
    (hescape : IsSharedEscape signed (numbers (u :: units)) (numbers iter) v) :
    ∃ t middle, input = t ++ middle ∧ TemplateChunk middle rest iter ∧
      (∀ d ∈ t, IsEscapeTail d) ∧ IsSharedEscape signed (u.toNat :: t ++ middle) middle v := by
  obtain ⟨c, t, htext, ht, -⟩ := hescape.exists_tail
  obtain ⟨rfl, hunits⟩ := List.cons.inj htext
  obtain ⟨front, iter', rfl, rfl, hiter⟩ := numbers_eq_append hunits
  obtain rfl := numbers_injective hiter
  have hfront : ∀ w ∈ front, IsEscapeTail w.toNat := fun w hw =>
    ht _ (List.mem_map.mpr ⟨w, hw, rfl⟩)
  obtain ⟨middle, rfl, hmiddle⟩ := h.of_units hfront
  refine ⟨numbers front, middle, rfl, hmiddle, ht, ?_⟩
  have htext' : IsSharedEscape signed ((u.toNat :: numbers front) ++ numbers iter') (numbers iter') v := by
    rw [numbers, List.map_cons, ← numbers, numbers_append] at hescape
    exact hescape
  exact htext'.change_rest (hmiddle.nextNot_of_numbers hrest)

/-- **What is cooked of a chunk** is the value of template characters, where plus signs are taken
in front of hexadecimal digits. -/
theorem TemplateChunk.exists_cooked (h : TemplateChunk input rest chunk) (hrest : Terminated rest)
    {out : List UInt16} (hcooked : asCookedLoop buf chunk = some out) :
    ∃ signed raw v, out = buf ++ v ∧ TemplateCharacters signed input rest raw (some v) := by
  induction hlen : chunk.length using Nat.strong_induction_on generalizing input chunk buf with
  | _ length ih =>
      subst hlen
      cases h with
      | nil =>
          rw [asCookedLoop_nil, Option.some.injEq] at hcooked
          exact ⟨_, _, [], by rw [hcooked, List.append_nil], .nil⟩
      | @char c input _ chunk hc hne hdollar htail =>
          have hlt : chunk.length < (utf16EncodeCodePoint c ++ chunk).length := by
            have hpos := length_utf16EncodeCodePoint_pos c
            rw [List.length_append]
            omega
          by_cases hline : IsLineTerminator c
          · obtain ⟨unit, hsequence⟩ :=
              isLineTerminatorSequence_behind (isLineTerminator_iff.mpr hline) input
            obtain ⟨c', after, heq, -, -, hunit⟩ := hsequence.exists_first
            obtain ⟨rfl, rfl⟩ := List.cons.inj heq
            have hne' : UInt16.ofNat c ≠ 0x5C := by
              intro h
              have hnat := toNat_ofNat_of_lt hline.lt.1
              rw [h] at hnat
              exact hline.lt.2 hnat.symm
            rw [utf16EncodeCodePoint_of_lt hline.lt.1, List.singleton_append,
              asCookedLoop_cons hne', hunit] at hcooked
            obtain ⟨signed, raw, v, rfl, hchars⟩ := ih _ hlt htail hcooked rfl
            exact ⟨_, _, _, List.append_assoc _ _ _, .lineTerminator hsequence hchars⟩
          · have hcr : c ≠ 0x0D := by
              rintro rfl
              exact hline (by decide)
            rw [asCookedLoop_char hc hne.2 hcr] at hcooked
            obtain ⟨signed, raw, v, rfl, hchars⟩ := ih _ hlt htail hcooked rfl
            rw [Cursor.behind_of_ne hcr] at hchars
            by_cases heq : c = 0x24
            · subst heq
              exact ⟨_, _, _, List.append_assoc _ _ _, .dollar (hdollar rfl) hchars⟩
            · exact ⟨_, _, _, List.append_assoc _ _ _, .char ⟨hne.1, hne.2, heq⟩ hline hchars⟩
      | @escaped c input _ chunk hc htail =>
          have hunits : UInt16.ofNat c :: chunk = codeUnits [c] ++ chunk := by
            rw [codeUnits, List.flatMap_singleton, utf16EncodeCodePoint_of_lt (by omega)]
            rfl
          have hshared := isSharedEscape_special hc input
          have hbound : ∀ d ∈ [c], d < 0x110000 := by
            rw [List.forall_mem_singleton]
            omega
          rw [hunits, asCookedLoop_escape hshared hbound htail] at hcooked
          obtain ⟨signed, raw, v, rfl, hchars⟩ :=
            ih _ ((Nat.lt_succ_self _).trans (Nat.lt_succ_self _)) htail hcooked rfl
          exact ⟨_, _, _, List.append_assoc _ _ _, .escape hshared hchars⟩
      | @backslash c input _ chunk hc htail =>
          obtain ⟨chunk', rfl, hbound, hbehind⟩ := htail.of_cons hrest hc
          have hlt : chunk'.length < (0x5C :: (utf16EncodeCodePoint c ++ chunk')).length := by
            rw [List.length_cons, List.length_append]
            omega
          obtain hbmp | hastral := Nat.lt_or_ge c 0x10000
          · have hnat := toNat_ofNat_of_lt hbmp
            rw [utf16EncodeCodePoint_of_lt hbmp, List.singleton_append, asCookedLoop_backslash]
              at hcooked
            split at hcooked
            · cases hcooked
            · next escapeValue iter hescape =>
                cases escapeValue with
                | none =>
                    obtain ⟨u, hu, hline⟩ := cookEscape_none_iff.mp hescape
                    obtain ⟨rfl, rfl⟩ := List.cons.inj hu
                    rw [hnat] at hline
                    obtain ⟨unit, hsequence⟩ :=
                      isLineTerminatorSequence_behind (isLineTerminator_iff.mpr hline) input
                    rw [Option.map_none, Option.getD_none, List.append_nil] at hcooked
                    obtain ⟨signed, raw, v, rfl, hchars⟩ := ih _ hlt hbehind hcooked rfl
                    exact ⟨_, _, _, rfl, .lineContinuation hsequence hchars⟩
                | some v =>
                    obtain ⟨signed, hshared⟩ := cookEscape_some_iff.mp hescape
                    have hcr : c ≠ 0x0D := by
                      rintro rfl
                      exact hshared.first (by decide)
                    rw [Cursor.behind_of_ne hcr] at hbehind
                    obtain ⟨t, middle, rfl, hmiddle, -, hsource⟩ :=
                      hbehind.exists_escape hrest hshared
                    rw [hnat] at hsource
                    have hlt' := (length_cookEscape_lt hescape).trans (Nat.lt_succ_self _)
                    rw [utf16EncodeCodePoint_of_lt hbmp] at ih
                    obtain ⟨signed', raw, w, rfl, hchars⟩ := ih _ hlt' hmiddle hcooked rfl
                    have hall := TemplateCharacters.escape hsource hchars
                    exact ⟨_, _, _, List.append_assoc _ _ _, hall⟩
          · have hshared : IsSharedEscape false ([c] ++ input) input c := by
              refine .nonEscape ⟨fun v hv => ?_, ?_, by omega, by omega, ?_⟩
              · have hall : ∀ e ∈ singleEscapes, e.1 < 0x80 := by decide
                have := hall _ hv
                omega
              · rw [IsDecimalDigit]
                omega
              · rw [IsLineTerminator]
                omega
            have hunits : utf16EncodeCodePoint c ++ chunk' = codeUnits [c] ++ chunk' := by
              rw [codeUnits, List.flatMap_singleton]
            rw [Cursor.behind_of_ne (by omega)] at hbehind
            rw [hunits, asCookedLoop_escape hshared (by simpa using hbound) hbehind] at hcooked
            obtain ⟨signed, raw, v, rfl, hchars⟩ := ih _ hlt hbehind hcooked rfl
            exact ⟨_, _, _, List.append_assoc _ _ _, .escape hshared hchars⟩

end BoaLigero.Lexer
