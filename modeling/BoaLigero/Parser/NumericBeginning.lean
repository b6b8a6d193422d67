import BoaLigero.Parser.NumberLiteral

/-!
# The Beginning of Numeric Literals

What the lexer of numbers does up to the digits of an integer: a zero may be followed by the letter
of a base, by the suffix of a `BigInt`, or by digits, which are octal unless one of them is not. The
beginning and the digits behind it are the integer part of a literal.

## Main results

* `lexStart_iff` — how a literal begins.
* `ReadsInteger.sound` — the integer part that is read is one of the grammar.
* `IntegerPart.read` — an integer part of the grammar is read.
-/

namespace BoaLigero.Lexer

open Digits

variable {strict legacyOctal : Bool} {init c d base radix : ℕ}
  {s u text left middle rest digits : List ℕ} {buf : List Char} {kind : NumericKind}
  {start : Start} {cursor : Cursor} {startPos : Position}

/-! ### The beginning -/

/-- How a literal begins: its first character, the text behind it, and what is left behind the
beginning. -/
inductive Started (strict : Bool) : ℕ → List ℕ → Start → List ℕ → Prop
  | zero : Started strict 0x30 [] (.finished (.integer 0)) []
  | zeroBigInt {rest : List ℕ} :
      Started strict 0x30 (0x6E :: rest) (.finished (.bigInt 0)) rest
  | base {p radix c d : ℕ} {rest : List ℕ} (hradix : radixOf p = some radix)
      (hd : IsDigit radix c d) :
      Started strict 0x30 (p :: c :: rest) (.digits [] (.integer radix) false) (c :: rest)
  -- octal digits behind a zero
  | octal {s digits rest : List ℕ} (hsloppy : strict = false) (hne : s ≠ [])
      (h : AreDigits 8 s digits) (hnext : NextNot (IsDigitOrSeparator 10) rest) :
      Started strict 0x30 (s ++ rest) (.digits (chars s) (.integer 8) true) rest
  -- octal digits behind a zero, in front of a digit that is not octal
  | decimal {s digits rest : List ℕ} {c : ℕ} (hsloppy : strict = false) (hne : s ≠ [])
      (h : AreDigits 8 s digits) (hc : c = 0x38 ∨ c = 0x39) :
      Started strict 0x30 (s ++ c :: rest) (.digits (chars s) (.integer 10) true) (c :: rest)
  | other {c : ℕ} {rest : List ℕ} (hradix : radixOf c = none) (hn : c ≠ 0x6E)
      (hoctal : ¬ IsOctalDigit c) (hsloppy : IsDecimalDigit c → strict = false) :
      Started strict 0x30 (c :: rest) (.digits ['0'] (.integer 10) true) (c :: rest)
  | nonZero {init : ℕ} {rest : List ℕ} (h : init ≠ 0x30) :
      Started strict init rest (.digits [byteOf init] (.integer 10) false) rest

/-- Digits behind the prefix of a base. -/
private theorem lexBase_iff {vanished message : String} (hrest : cursor.rest = c :: text)
    (hc : c ≠ 0x0D) :
    Delivers (lexBase base vanished message cursor) start left ↔
      start = .digits [] (.integer base) false ∧ left = text ∧
        ∃ c' t d, text = c' :: t ∧ IsDigit base c' d := by
  simp only [lexBase, delivers_bind, expectNext_eq _ hrest]
  have hadvance := Cursor.rest_advance_of_ne hrest hc
  constructor
  · rintro ⟨_, _, hok, h⟩
    cases hok
    split at h
    · next hdigit =>
        obtain ⟨rfl, rfl⟩ := delivers_ok.mp h
        refine ⟨rfl, hadvance, ?_⟩
        rw [← Bool.not_eq_false, nextIsDigit_iff, hadvance] at hdigit
        cases text with
        | nil => exact absurd nextNot_nil hdigit
        | cons c' t =>
            rw [nextNot_cons, not_not] at hdigit
            exact ⟨c', t, hdigit.choose, rfl, hdigit.choose_spec⟩
    · simp [fallible, Except.mapError] at h
  · rintro ⟨rfl, rfl, c', t, d, rfl, hd⟩
    refine ⟨_, _, rfl, ?_⟩
    have hdigit : cursor.advance.nextIsAsciiPred (isDigit base) = true := by
      rw [← Bool.not_eq_false, nextIsDigit_iff, hadvance, nextNot_cons, not_not]
      exact ⟨d, hd⟩
    rw [if_pos hdigit]
    exact delivers_ok.mpr ⟨rfl, hadvance⟩

/-- Digits that are no octal digits are `8` and `9`. -/
theorem isDigit_ten_iff : (∃ d, IsDigit 10 c d) ↔ IsOctalDigit c ∨ c = 0x38 ∨ c = 0x39 := by
  rw [← isDecimalDigit_iff, IsDecimalDigit, IsOctalDigit]
  omega

/-- Octal digits behind a zero: what is left behind them, and the base in which they are read, which
is ten in front of other digits. -/
def OctalStart (text : List ℕ) (start : Start) (left : List ℕ) : Prop :=
  ∃ s digits, text = s ++ left ∧ s ≠ [] ∧ AreDigits 8 s digits ∧
    NextNot (IsDigitOrSeparator 8) left ∧
      (NextNot (IsDigitOrSeparator 10) left ∧ start = .digits (chars s) (.integer 8) true ∨
        ¬ NextNot (IsDigitOrSeparator 10) left ∧ start = .digits (chars s) (.integer 10) true)

/-- Octal digits behind a zero, and what is left behind them. -/
private theorem lexLegacy_octal (hrest : cursor.rest = c :: text) (hc : IsDigit 8 c d)
    (hsloppy : cursor.strict = false) :
    Delivers (lexLegacy c startPos cursor) start left ↔ OctalStart (c :: text) start left := by
  have hadvance := Cursor.rest_advance_of_ne hrest hc.lt_ascii.2.2
  have hchars (s : List ℕ) : [byteOf c] ++ chars s = chars (c :: s) := by
    rw [chars_cons hc.lt_ascii.2.1, List.singleton_append]
  simp only [lexLegacy, if_pos (any_isDigit_iff.mpr ⟨d, hc⟩), hsloppy, Bool.false_eq_true, if_false,
    delivers_bind, expectNext_eq _ hrest, fallible_eq_ok_iff]
  constructor
  · rintro ⟨_, _, hok, buf, middle, htake, h⟩
    cases hok
    obtain ⟨s, htext, ⟨digits, htail⟩, hnot, hstop, rfl⟩ := takeInteger_iff.mp ⟨middle, htake, rfl⟩
    rw [hadvance] at htext
    have hleft : middle.rest = left := by
      split at h <;> exact (delivers_ok.mp h).2
    subst hleft
    refine ⟨c :: s, d :: digits, by rw [htext, List.cons_append], List.cons_ne_nil _ _,
      .cons hc (htail.areDigits (hnot rfl)), hstop, ?_⟩
    split at h
    · next hnext =>
        rw [← Bool.not_eq_false, nextIsDigitOrSeparator_iff] at hnext
        exact .inr ⟨hnext, by rw [← (delivers_ok.mp h).1, hchars]⟩
    · next hnext =>
        rw [Bool.not_eq_true, nextIsDigitOrSeparator_iff] at hnext
        exact .inl ⟨hnext, by rw [← (delivers_ok.mp h).1, hchars]⟩
  · rintro ⟨s, digits, htext, hne, hdigits, hstop, h⟩
    cases hdigits with
    | nil => exact absurd rfl hne
    | cons hd hdigits =>
        obtain ⟨rfl, rfl⟩ := List.cons.inj htext
        obtain ⟨htail, hnot⟩ := separatedTail_of_areDigits hdigits
        have htakes : Delivers (takeInteger [byteOf c] cursor.advance (.integer 8) false)
            ([byteOf c] ++ chars _) left :=
          takeInteger_iff.mpr ⟨_, hadvance, ⟨_, htail⟩, fun _ => hnot, hstop, rfl⟩
        obtain ⟨middle, htake, rfl⟩ := htakes
        refine ⟨_, _, rfl, _, middle, htake, ?_⟩
        rw [hchars]
        obtain ⟨hnext, rfl⟩ | ⟨hnext, rfl⟩ := h
        · rw [nextIsDigitOrSeparator_iff.mpr hnext, if_neg Bool.false_ne_true]
          exact delivers_ok.mpr ⟨rfl, rfl⟩
        · rw [← nextIsDigitOrSeparator_iff, Bool.not_eq_false] at hnext
          rw [if_pos hnext]
          exact delivers_ok.mpr ⟨rfl, rfl⟩

/-- What begins with a zero and another character. -/
private theorem Started.of_cons (h : Started strict 0x30 (c :: text) start left) :
    c = 0x6E ∧ start = .finished (.bigInt 0) ∧ left = text ∨
    (∃ radix, radixOf c = some radix ∧ start = .digits [] (.integer radix) false ∧ left = text ∧
      ∃ c' t d, text = c' :: t ∧ IsDigit radix c' d) ∨
    (IsOctalDigit c ∧ strict = false ∧ OctalStart (c :: text) start left) ∨
    radixOf c = none ∧ c ≠ 0x6E ∧ ¬ IsOctalDigit c ∧ (IsDecimalDigit c → strict = false) ∧
      start = .digits ['0'] (.integer 10) true ∧ left = c :: text := by
  have hfirst {s digits rest : List ℕ} (hne : s ≠ []) (hs : AreDigits 8 s digits)
      (htext : c :: text = s ++ rest) : IsOctalDigit c := by
    cases hs with
    | nil => exact absurd rfl hne
    | cons hd _ =>
        obtain ⟨rfl, -⟩ := List.cons.inj htext
        exact isOctalDigit_iff.mpr ⟨_, hd⟩
  generalize hinit : 0x30 = init at h
  generalize htext : c :: text = text' at h
  cases h with
  | zero => cases htext
  | zeroBigInt =>
      obtain ⟨rfl, rfl⟩ := List.cons.inj htext
      exact .inl ⟨rfl, rfl, rfl⟩
  | base hradix hd =>
      obtain ⟨rfl, rfl⟩ := List.cons.inj htext
      exact .inr (.inl ⟨_, hradix, rfl, rfl, _, _, _, rfl, hd⟩)
  | octal hsloppy hne hs hnext =>
      refine .inr (.inr (.inl ⟨hfirst hne hs htext, hsloppy, _, _, rfl, hne, hs,
        fun a ha hdigit => hnext a ha ?_, .inl ⟨hnext, rfl⟩⟩))
      exact hdigit.imp_left fun h => isDigit_ten_iff.mpr (.inl (isOctalDigit_iff.mpr h))
  | @decimal s _ rest a hsloppy hne hs ha =>
      refine .inr (.inr (.inl ⟨hfirst hne hs htext, hsloppy, _, _, rfl, hne, hs, ?_,
        .inr ⟨?_, rfl⟩⟩))
      · rw [nextNot_cons, IsDigitOrSeparator, ← isOctalDigit_iff, IsOctalDigit]
        omega
      · rw [nextNot_cons, not_not]
        exact .inl (isDigit_ten_iff.mpr (.inr ha))
  | other hradix hn hoctal hsloppy =>
      obtain ⟨rfl, rfl⟩ := List.cons.inj htext
      exact .inr (.inr (.inr ⟨hradix, hn, hoctal, hsloppy, rfl, rfl⟩))
  | nonZero h => exact absurd hinit.symm h

/-- The kinds of characters behind a zero exclude each other. -/
private theorem not_octal_of_letter (h : c = 0x6E ∨ ∃ radix, radixOf c = some radix) :
    ¬ IsOctalDigit c := by
  rw [IsOctalDigit]
  rcases h with rfl | ⟨radix, hradix⟩
  · decide
  · rw [radixOf_eq_some_iff] at hradix
    omega

/-- The letter of a prefix is no suffix. -/
private theorem radixOf_suffix : radixOf 0x6E = none := by decide

/-- What begins behind a zero with no letter of a prefix or suffix. -/
private theorem lexLegacy_iff (hrest : cursor.rest = c :: text) (hradix : radixOf c = none)
    (hn : c ≠ 0x6E) :
    Delivers (lexLegacy c startPos cursor) start left ↔
      Started cursor.strict 0x30 (c :: text) start left := by
  by_cases hoctal : ∃ d, IsDigit 8 c d
  · have hstarted (h : Started cursor.strict 0x30 (c :: text) start left) :
        cursor.strict = false ∧ OctalStart (c :: text) start left := by
      obtain ⟨h, -⟩ | ⟨_, h, -⟩ | ⟨-, h⟩ | ⟨-, -, h, -⟩ := h.of_cons
      · exact absurd h hn
      · rw [hradix] at h
        cases h
      · exact h
      · exact absurd (isOctalDigit_iff.mpr hoctal) h
    obtain ⟨d, hd⟩ := hoctal
    cases hstrict : cursor.strict with
    | true =>
        rw [lexLegacy, if_pos (any_isDigit_iff.mpr ⟨d, hd⟩), if_pos hstrict]
        refine iff_of_false not_delivers_error fun h => ?_
        rw [hstrict] at hstarted
        exact absurd (hstarted h).1 (by decide)
    | false =>
        rw [lexLegacy_octal hrest hd hstrict]
        rw [hstrict] at hstarted
        refine ⟨?_, fun h => (hstarted h).2⟩
        rintro ⟨s, digits, htext, hne, hs, hstop, ⟨hnext, rfl⟩ | ⟨hnext, rfl⟩⟩
        · rw [htext]
          exact .octal rfl hne hs hnext
        · -- the digit in front of which the octal digits end
          obtain ⟨a, rest, rfl⟩ : ∃ a rest, left = a :: rest := by
            cases left with
            | nil => exact absurd nextNot_nil hnext
            | cons a rest => exact ⟨a, rest, rfl⟩
          rw [nextNot_cons, IsDigitOrSeparator, ← isOctalDigit_iff] at hstop
          rw [nextNot_cons, not_not, IsDigitOrSeparator, isDigit_ten_iff] at hnext
          rw [htext]
          exact .decimal rfl hne hs (by tauto)
  · have hreject : ((charFromU32 c).any (isDigit 10) && cursor.strict) = true ↔
        IsDecimalDigit c ∧ cursor.strict = true := by
      rw [Bool.and_eq_true, any_isDigit_iff, isDigit_ten_iff]
      refine and_congr_left fun _ => ?_
      rw [IsOctalDigit, IsDecimalDigit]
      omega
    rw [lexLegacy, if_neg fun h => hoctal (any_isDigit_iff.mp h)]
    rw [← isOctalDigit_iff] at hoctal
    have hstarted (h : Started cursor.strict 0x30 (c :: text) start left) :
        (IsDecimalDigit c → cursor.strict = false) ∧
          start = .digits ['0'] (.integer 10) true ∧ left = c :: text := by
      obtain ⟨h, -⟩ | ⟨_, h, -⟩ | ⟨h, -⟩ | ⟨-, -, -, h⟩ := h.of_cons
      · exact absurd h hn
      · rw [hradix] at h
        cases h
      · exact absurd h hoctal
      · exact h
    split
    · next h =>
        obtain ⟨hdigit, hstrict⟩ := hreject.mp h
        refine iff_of_false not_delivers_error fun h => ?_
        rw [(hstarted h).1 hdigit] at hstrict
        cases hstrict
    · next h =>
        rw [delivers_ok, hrest]
        refine ⟨?_, fun h => ⟨(hstarted h).2.1.symm, (hstarted h).2.2.symm⟩⟩
        rintro ⟨rfl, rfl⟩
        refine .other hradix hn hoctal fun hdigit => ?_
        rw [← Bool.not_eq_true]
        exact fun hstrict => h (hreject.mpr ⟨hdigit, hstrict⟩)

/-- The prefix of a base behind a zero. -/
private theorem lexBase_iff_started {vanished message : String} (hrest : cursor.rest = c :: text)
    (hradix : radixOf c = some radix) :
    Delivers (lexBase radix vanished message cursor) start left ↔
      Started strict 0x30 (c :: text) start left := by
  have hcr : c ≠ 0x0D := by
    rw [radixOf_eq_some_iff] at hradix
    omega
  rw [lexBase_iff hrest hcr]
  constructor
  · rintro ⟨rfl, rfl, c', t, d, rfl, hd⟩
    exact .base hradix hd
  · intro h
    obtain ⟨rfl, -⟩ | ⟨radix', hradix', h⟩ | ⟨h, -⟩ | ⟨h, -⟩ := h.of_cons
    · rw [radixOf_suffix] at hradix
      cases hradix
    · obtain rfl := Option.some.inj (hradix.symm.trans hradix')
      exact h
    · exact absurd h (not_octal_of_letter (.inr ⟨radix, hradix⟩))
    · rw [hradix] at h
      cases h

/-- The literal `0n`. -/
private theorem lexZeroBigInt_iff (hrest : cursor.rest = 0x6E :: text) :
    Delivers (lexZeroBigInt cursor) start left ↔ Started strict 0x30 (0x6E :: text) start left := by
  have hadvance := Cursor.rest_advance_of_ne hrest (by decide)
  simp only [lexZeroBigInt, delivers_bind, expectNext_eq _ hrest]
  constructor
  · rintro ⟨_, _, hok, h⟩
    cases hok
    obtain ⟨rfl, rfl⟩ := delivers_ok.mp h
    rw [hadvance]
    exact .zeroBigInt
  · intro h
    refine ⟨_, _, rfl, delivers_ok.mpr ?_⟩
    obtain ⟨-, rfl, rfl⟩ | ⟨_, h, -⟩ | ⟨h, -⟩ | ⟨-, h, -⟩ := h.of_cons
    · exact ⟨rfl, hadvance⟩
    · rw [radixOf_suffix] at h
      cases h
    · exact absurd h (not_octal_of_letter (.inl rfl))
    · exact absurd rfl h

/-- The literal `0` at the end of the text. -/
private theorem Started.of_nil (h : Started strict 0x30 [] start left) :
    start = .finished (.integer 0) ∧ left = [] := by
  generalize hinit : 0x30 = init at h
  generalize hnil : ([] : List ℕ) = text at h
  cases h with
  | zero => exact ⟨rfl, rfl⟩
  | zeroBigInt | base _ _ | other _ _ _ _ => cases hnil
  | octal _ hne _ _ => exact absurd (List.nil_eq_append_iff.mp hnil).1 hne
  | decimal _ hne _ _ => exact absurd (List.nil_eq_append_iff.mp hnil).1 hne
  | nonZero h => exact absurd hinit.symm h

/-- **The beginning of a literal.** -/
theorem lexStart_iff : Delivers (lexStart init startPos cursor) start left ↔
    Started cursor.strict init cursor.rest start left := by
  rw [lexStart]
  split
  · next hzero =>
      subst hzero
      cases hrest : cursor.rest with
      | nil =>
          have hpeek : cursor.peekChar = none := by rw [Cursor.peekChar, hrest, List.head?_nil]
          rw [hpeek, delivers_ok, hrest]
          constructor
          · rintro ⟨rfl, rfl⟩
            exact .zero
          · exact fun h => ⟨h.of_nil.1.symm, h.of_nil.2.symm⟩
      | cons c text =>
          rw [Cursor.peekChar_of_rest hrest]
          dsimp only
          split_ifs with hx ho hb hn
          · exact lexBase_iff_started hrest (radixOf_eq_some_iff.mpr (.inr (.inr ⟨hx, rfl⟩)))
          · exact lexBase_iff_started hrest (radixOf_eq_some_iff.mpr (.inr (.inl ⟨ho, rfl⟩)))
          · exact lexBase_iff_started hrest (radixOf_eq_some_iff.mpr (.inl ⟨hb, rfl⟩))
          · subst hn
            exact lexZeroBigInt_iff hrest
          · refine lexLegacy_iff hrest ?_ hn
            rw [radixOf, if_neg hb, if_neg ho, if_neg hx]
  · next hzero =>
      rw [delivers_ok]
      constructor
      · rintro ⟨rfl, rfl⟩
        exact .nonZero hzero
      · intro h
        generalize cursor.rest = text at h ⊢
        cases h with
        | nonZero _ => exact ⟨rfl, rfl⟩
        | zero | zeroBigInt | base _ _ | octal _ _ _ _ | decimal _ _ _ _ | other _ _ _ _ =>
            exact absurd rfl hzero

/-! ### The integer part -/

/-- The integer part of a literal: its text and digits, its base, and whether it has a leading zero
with no prefix. -/
inductive IntegerPart (strict : Bool) : List ℕ → List ℕ → ℕ → Bool → Prop
  | decimal {s digits : List ℕ} {legacyOctal : Bool} (h : DecimalIntegerLiteral strict s digits)
      (hlegacy : legacyOctal = true ↔ s.head? = some 0x30) :
      IntegerPart strict s digits 10 legacyOctal
  | nonDecimal {c radix : ℕ} {s digits : List ℕ} (hradix : radixOf c = some radix)
      (h : SeparatedDigits radix s digits) :
      IntegerPart strict (0x30 :: c :: s) digits radix false
  | legacyOctal {s digits : List ℕ} (hsloppy : strict = false) (hne : s ≠ [])
      (h : AreDigits 8 s digits) : IntegerPart strict (0x30 :: s) digits 8 true

/-- The buffer has digits with the number of others. -/
def SameNumber (base : ℕ) (buf : List Char) (digits : List ℕ) : Prop :=
  buf ≠ [] ∧ ∃ digits', IsDigits base buf digits' ∧ ofDigits base digits' = ofDigits base digits

/-- The integer part is read behind the first character: the beginning, and then the digits. -/
def ReadsInteger (strict : Bool) (init : ℕ) (text : List ℕ) (buf : List Char) (base : ℕ)
    (legacyOctal : Bool) (middle : List ℕ) : Prop :=
  ∃ front s, Started strict init text (.digits front (.integer base) legacyOctal) (s ++ middle) ∧
    (∃ digits, SeparatedTail base s digits) ∧ (legacyOctal = true → 0x5F ∉ s) ∧
      NextNot (IsDigitOrSeparator base) middle ∧ buf = front ++ chars s

/-- A leading zero does not change the number. -/
theorem ofDigits_zero_cons (digits : List ℕ) :
    ofDigits base (0 :: digits) = ofDigits base digits := by
  simp [ofDigits]

/-- Digits are pushed as such. -/
theorem AreDigits.isDigits (h : AreDigits radix s digits) : IsDigits radix (chars s) digits :=
  (separatedTail_of_areDigits h).1.isDigits

/-- Digits are pushed for digits. -/
theorem AreDigits.chars_ne_nil (h : AreDigits radix s digits) (hne : s ≠ []) : chars s ≠ [] := by
  cases h with
  | nil => exact absurd rfl hne
  | cons hd _ =>
      rw [chars_cons hd.lt_ascii.2.1]
      exact List.cons_ne_nil _ _

/-- A digit of a base is a digit of a larger one. -/
theorem IsDigit.mono {radix' : ℕ} (h : IsDigit radix c d) (hle : radix ≤ radix') :
    IsDigit radix' c d :=
  ⟨h.1.trans_le hle, h.2⟩

/-- Digits of a base are digits of a larger one. -/
theorem AreDigits.mono {radix' : ℕ} (h : AreDigits radix s digits) (hle : radix ≤ radix') :
    AreDigits radix' s digits :=
  h.imp fun _ _ hd => hd.mono hle

/-- **The integer part that is read** is one of the grammar. -/
theorem ReadsInteger.sound (h : ReadsInteger strict init text buf base legacyOctal middle)
    (hinit : IsDecimalDigit init) : ∃ u digits, init :: text = u ++ middle ∧
      IntegerPart strict u digits base legacyOctal ∧ SameNumber base buf digits := by
  obtain ⟨front, s, hstart, ⟨digits, htail⟩, hnot, hnext, rfl⟩ := h
  generalize hleft : s ++ middle = left at hstart
  generalize hvalue : Start.digits front (.integer base) legacyOctal = start at hstart
  cases hstart with
  | zero | zeroBigInt => cases hvalue
  | @base p radix c d rest hradix hd =>
      cases hvalue
      obtain ⟨s, rfl, -⟩ := exists_cons_of_nextNot hleft.symm hnext (.inl ⟨d, hd⟩)
      obtain ⟨digits, hdigits⟩ :=
        exists_separatedDigits_iff.mpr ⟨⟨_, htail⟩, _, _, _, rfl, hd⟩
      exact ⟨0x30 :: p :: c :: s, digits, by rw [← hleft]; rfl, .nonDecimal hradix hdigits,
        hdigits.isDigits.2, digits, hdigits.isDigits.1, rfl⟩
  | @octal s' digits' _ hsloppy hne hs hnext' =>
      cases hvalue
      -- nothing is left to be taken
      obtain rfl : s = [] := by
        cases s with
        | nil => rfl
        | cons c s =>
            rw [← hleft, List.cons_append, nextNot_cons] at hnext'
            refine absurd (htail.mem List.mem_cons_self) fun h => hnext' (h.imp_left ?_)
            exact fun hd => isDigit_ten_iff.mpr (.inl (isOctalDigit_iff.mpr hd))
      rw [List.nil_append] at hleft
      refine ⟨0x30 :: s', digits', by rw [hleft]; rfl, .legacyOctal hsloppy hne hs, ?_, digits',
        ?_, rfl⟩
      · simpa using hs.chars_ne_nil hne
      · simpa using hs.isDigits
  | @decimal s' digits' rest c hsloppy hne hs hc =>
      cases hvalue
      obtain ⟨s, rfl, -⟩ := exists_cons_of_nextNot hleft.symm hnext
        (.inl (isDigit_ten_iff.mpr (.inr hc)))
      have hall : AreDigits 10 (s' ++ c :: s) (digits' ++ digits) :=
        List.rel_append (hs.mono (by decide)) (htail.areDigits (hnot rfl))
      have hdigit : ∃ a ∈ s' ++ c :: s, ¬ IsOctalDigit a := by
        refine ⟨c, by simp, ?_⟩
        rw [IsOctalDigit]
        omega
      refine ⟨0x30 :: (s' ++ c :: s), _, by rw [← hleft]; simp,
        .decimal (.nonOctal hsloppy hall hdigit) (by simp), ?_, digits' ++ digits, ?_,
        (ofDigits_zero_cons _).symm⟩
      · simp [hs.chars_ne_nil hne]
      · rw [← chars_append]
        exact hall.isDigits
  | @other c rest hradix hn hoctal hsloppy =>
      cases hvalue
      have hzero : IsDigits 10 ['0'] [0] := .cons rfl .nil
      cases s with
      | nil =>
          rw [List.nil_append] at hleft
          exact ⟨[0x30], [0], by rw [hleft]; rfl, .decimal .zero (by simp), by simp, [0],
            by simpa using hzero, rfl⟩
      | cons c' s =>
          obtain ⟨rfl, rfl⟩ := List.cons.inj hleft
          have hall := htail.areDigits (hnot rfl)
          have hdecimal : IsDecimalDigit c' :=
            isDecimalDigit_iff.mpr (hall.mem List.mem_cons_self)
          exact ⟨0x30 :: c' :: s, 0 :: digits, rfl,
            .decimal (.nonOctal (hsloppy hdecimal) hall ⟨c', List.mem_cons_self, hoctal⟩) (by simp),
            by simp, 0 :: digits, List.rel_append hzero hall.isDigits, rfl⟩
  | nonZero hzero =>
      cases hvalue
      obtain ⟨d, hd⟩ := isDecimalDigit_iff.mp hinit
      refine ⟨init :: s, _ :: digits, by rw [← hleft]; rfl,
        .decimal (.nonZero hd ?_ htail) (by simp [hzero]), by simp, d :: digits,
        .cons hd.toDigit_byteOf htail.isDigits, rfl⟩
      rw [isDigit_iff_of_le (Nat.le_refl 10)] at hd
      omega

/-- Digits with one that is not octal: octal digits, and the first one that is not. -/
private theorem exists_octal_run (h : AreDigits 10 s digits) (hdigit : ∃ c ∈ s, ¬ IsOctalDigit c) :
    ∃ front c back frontDigits backDigits, s = front ++ c :: back ∧ (c = 0x38 ∨ c = 0x39) ∧
      AreDigits 8 front frontDigits ∧ AreDigits 10 (c :: back) backDigits ∧
        digits = frontDigits ++ backDigits := by
  induction h with
  | nil => simp at hdigit
  | @cons c d s digits hd hs ih =>
      by_cases hoctal : ∃ d, IsDigit 8 c d
      · have hrest : ∃ c ∈ s, ¬ IsOctalDigit c := by
          obtain ⟨a, ha, hnot⟩ := hdigit
          rcases List.mem_cons.mp ha with rfl | ha
          · exact absurd (isOctalDigit_iff.mpr hoctal) hnot
          · exact ⟨a, ha, hnot⟩
        obtain ⟨front, a, back, frontDigits, backDigits, rfl, ha, hfront, hback, rfl⟩ := ih hrest
        obtain ⟨d', hd'⟩ := hoctal
        obtain rfl := hd.unique (IsDigit.mono hd' (by decide))
        exact ⟨c :: front, a, back, d :: frontDigits, backDigits, rfl, ha, .cons hd' hfront, hback,
          rfl⟩
      · rw [← isOctalDigit_iff] at hoctal
        have hc := (isDigit_ten_iff.mp ⟨d, hd⟩).resolve_left hoctal
        exact ⟨[], c, s, [], d :: digits, rfl, hc, .nil, .cons hd hs, rfl⟩

/-- **The integer part of a literal is read** in front of other characters. -/
theorem IntegerPart.read (h : IntegerPart strict u digits base legacyOctal)
    (htext : init :: text = u ++ middle) (hnext : NextNot (IsDigitOrSeparator base) middle)
    (hnext' : NextNot (IsDigitOrSeparator 10) middle)
    (hzero : u = [0x30] → ∃ c rest, middle = c :: rest ∧ radixOf c = none ∧ c ≠ 0x6E) :
    ∃ buf, ReadsInteger strict init text buf base legacyOctal middle ∧
      SameNumber base buf digits := by
  cases h with
  | decimal h hlegacy =>
      cases h with
      | zero =>
          obtain rfl : legacyOctal = true := hlegacy.mpr rfl
          obtain ⟨rfl, rfl⟩ := List.cons.inj htext
          obtain ⟨c, rest, rfl, hradix, hn⟩ := hzero rfl
          rw [nextNot_cons] at hnext'
          have hoctal : ¬ IsOctalDigit c := fun h =>
            hnext' (.inl (isDigit_ten_iff.mpr (.inl h)))
          have hstart : Started strict 0x30 (c :: rest) (.digits ['0'] (.integer 10) true)
              ([] ++ c :: rest) :=
            .other hradix hn hoctal fun h => absurd (.inl (isDecimalDigit_iff.mp h)) hnext'
          exact ⟨['0'], ⟨['0'], [], hstart, ⟨[], .nil⟩, by simp, hnext, rfl⟩, by simp, [0],
            .cons rfl .nil, rfl⟩
      | @nonZero c d s digits hd hne htail =>
          obtain ⟨rfl, rfl⟩ := List.cons.inj htext
          have hinit : init ≠ 0x30 := by
            rintro rfl
            rw [isDigit_iff_of_le (Nat.le_refl 10)] at hd
            omega
          obtain rfl : legacyOctal = false := by
            rw [← Bool.not_eq_true, hlegacy]
            simpa using hinit
          exact ⟨_, ⟨[byteOf init], s, .nonZero hinit, ⟨_, htail⟩, by simp, hnext, rfl⟩, by simp,
            d :: digits, .cons hd.toDigit_byteOf htail.isDigits, rfl⟩
      | @nonOctal s digits hsloppy hs hdigit =>
          obtain rfl : legacyOctal = true := hlegacy.mpr rfl
          obtain ⟨rfl, rfl⟩ := List.cons.inj htext
          obtain ⟨front, c, back, frontDigits, backDigits, rfl, hc, hfront, hback, rfl⟩ :=
            exists_octal_run hs hdigit
          obtain ⟨htail, hnot⟩ := separatedTail_of_areDigits hback
          by_cases hempty : front = []
          · subst hempty
            cases hfront
            have hstart : Started strict 0x30 ([] ++ c :: back ++ middle)
                (.digits ['0'] (.integer 10) true) (c :: back ++ middle) := by
              refine .other ?_ ?_ ?_ fun _ => hsloppy
              · rw [radixOf, if_neg (by omega), if_neg (by omega), if_neg (by omega)]
              · omega
              · rw [IsOctalDigit]
                omega
            exact ⟨_, ⟨['0'], c :: back, hstart, ⟨_, htail⟩, fun _ => hnot, hnext, rfl⟩, by simp,
              0 :: backDigits, .cons rfl hback.isDigits, rfl⟩
          · have hstart : Started strict 0x30 (front ++ c :: back ++ middle)
                (.digits (chars front) (.integer 10) true) (c :: back ++ middle) := by
              rw [List.append_assoc]
              exact .decimal hsloppy hempty hfront hc
            refine ⟨_, ⟨chars front, c :: back, hstart, ⟨_, htail⟩, fun _ => hnot, hnext, rfl⟩,
              ?_, frontDigits ++ backDigits, ?_, (ofDigits_zero_cons _).symm⟩
            · simp [hfront.chars_ne_nil hempty]
            · rw [← chars_append]
              exact hs.isDigits
  | @nonDecimal c radix s digits hradix h =>
      obtain ⟨rfl, rfl⟩ := List.cons.inj htext
      obtain ⟨⟨_, htail⟩, c', s', d, rfl, hd⟩ := exists_separatedDigits_iff.mp ⟨_, h⟩
      exact ⟨_, ⟨[], c' :: s', .base hradix hd, ⟨_, htail⟩, by simp, hnext, rfl⟩,
        h.isDigits.2, digits, h.isDigits.1, rfl⟩
  | @legacyOctal s digits hsloppy hne h =>
      obtain ⟨rfl, rfl⟩ := List.cons.inj htext
      refine ⟨_, ⟨chars s, [], .octal hsloppy hne h hnext', ⟨[], .nil⟩, by simp, hnext, rfl⟩, ?_,
        digits, ?_, rfl⟩
      · simpa using h.chars_ne_nil hne
      · simpa using h.isDigits

end BoaLigero.Lexer
