import BoaLigero.String.ToNumber

/-!
# Strings as BigInts

`StringToBigInt` (`JsBigInt::from_js_string`, `bigint.rs`): the string is trimmed by the standard
library, the prefix of a base is cut off, and the rest is left to the parser of the big integer
library, which reads a sign and underscores as well.

## Main results

* `readTrimmed_iff` — what is read without underscores and without a sign after a prefix is the
  grammar.
* `reads_iff_not_misread` — the strings that are read as the grammar says.
* `fromJsString_decimalString` — the decimal string of a BigInt is read as that BigInt.
-/

namespace BoaLigero.JsBigInt

open Digits

/-! ### The source -/

/-- The Unicode property `White_Space` (`char::is_whitespace`). -/
def isWhitespace (c : Char) : Bool :=
  (0x9 ≤ c.toNat && c.toNat ≤ 0xD) || c.toNat ∈ [0x20, 0x85, 0xA0, 0x1680] ||
    (0x2000 ≤ c.toNat && c.toNat ≤ 0x200A) || c.toNat ∈ [0x2028, 0x2029, 0x202F, 0x205F, 0x3000]

/-- The radix that the prefix of a string stands for, and what follows it. -/
def splitRadix (string : List Char) : ℕ × List Char :=
  match string with
  | '0' :: c :: rest =>
    match prefixBase c with
    | some radix => (radix, rest)
    | none => (10, string)
  | _ => (10, string)

/-- `from_string` after trimming; `parse` is `parse_bytes` with its radix. -/
def readTrimmed (parse : ℕ → List Char → Option ℤ) (string : List Char) : Option ℤ :=
  if string = [] then some 0 else parse (splitRadix string).1 (splitRadix string).2

/-- `from_string`: the text is trimmed, and an empty one is zero. -/
def fromString (parse : ℕ → List Char → Option ℤ) (string : List Char) : Option ℤ :=
  readTrimmed parse (trimMatches isWhitespace string)

/-- `from_js_string`: a string with unpaired surrogates is none of a big integer. -/
def fromJsString (parse : ℕ → List Char → Option ℤ) (string : JsStr) : Option ℤ :=
  string.toStdString.bind (fromString parse)

/-! ### The library -/

/-- An integer with its sign. -/
def signed (negative : Bool) (n : ℕ) : ℤ := if negative then -n else n

/-- Digits with single underscores between them. -/
inductive IsSeparated (radix : ℕ) : List Char → List ℕ → Prop
  | digits {s digits} (hne : s ≠ []) (h : IsDigits radix s digits) : IsSeparated radix s digits
  | underscore {s digits t digits'} (hne : s ≠ []) (h : IsDigits radix s digits)
      (rest : IsSeparated radix t digits') : IsSeparated radix (s ++ '_' :: t) (digits ++ digits')

/-- The documented behaviour of the parser: an optional sign and digits are read, also with
underscores between the digits, and nothing is read but signs, digits and underscores. -/
structure ReadsIntegers (parse : ℕ → List Char → Option ℤ) : Prop where
  separated : ∀ {radix sign negative s digits}, IsSign sign negative →
    IsSeparated radix s digits → parse radix (sign ++ s) = some (signed negative (ofDigits radix digits))
  sound : ∀ {radix text v}, parse radix text = some v → ∃ sign negative s digits,
    text = sign ++ s ∧ IsSign sign negative ∧ s.filter (· ≠ '_') ≠ [] ∧
      IsDigits radix (s.filter (· ≠ '_')) digits ∧ v = signed negative (ofDigits radix digits)

/-! ### The grammar -/

/-- `StringIntegerLiteral` without the white space around it, and its value. -/
inductive IntegerLiteral : List Char → ℤ → Prop
  | empty : IntegerLiteral [] 0
  | decimal {sign negative s digits} (hsign : IsSign sign negative) (hne : s ≠ [])
      (hdigits : IsDigits 10 s digits) :
      IntegerLiteral (sign ++ s) (signed negative (ofDigits 10 digits))
  | nonDecimal {c base s digits} (hbase : prefixBase c = some base) (hne : s ≠ [])
      (hdigits : IsDigits base s digits) : IntegerLiteral ('0' :: c :: s) (ofDigits base digits)

/-- `StringIntegerLiteral`, and its value. -/
def StringIntegerLiteral (s : JsStr) (v : ℤ) : Prop :=
  ∃ text, s.IsText text ∧ IntegerLiteral (trimmed text) v

/-- The texts that the library reads and the grammar does not have: a sign after the prefix of a
base, and underscores. -/
inductive Extended (parse : ℕ → List Char → Option ℤ) : List Char → Prop
  | sign {c base sign s digits} (hbase : prefixBase c = some base)
      (hsign : sign = '+' ∨ sign = '-') (hne : s ≠ []) (hdigits : IsDigits base s digits) :
      Extended parse ('0' :: c :: sign :: s)
  | underscore {text} (hmem : '_' ∈ text)
      (hparse : (parse (splitRadix text).1 (splitRadix text).2).isSome) : Extended parse text

/-- The texts that are misread: a literal next to a byte order mark, which is not trimmed; a
literal next to a next line character, which is trimmed; and what the library reads beyond the
grammar. -/
inductive Misread (parse : ℕ → List Char → Option ℤ) (text : List Char) : Prop
  | byteOrderMark {v} (h : IntegerLiteral (trimmed text) v) (hmem : Char.ofNat 0xFEFF ∈ text)
  | nextLine {v} (h : IntegerLiteral (trimMatches isWhitespace text) v)
      (hmem : Char.ofNat 0x85 ∈ text)
  | extended (h : Extended parse (trimMatches isWhitespace text))

/-! ### Characters -/

variable {parse : ℕ → List Char → Option ℤ} {t s text : List Char} {v : ℤ} {base : ℕ}
  {c : Char} {digits : List ℕ}

/-- The characters of literals: signs, digits and letters. -/
def isIntegerCharacter (c : Char) : Bool :=
  c.toNat ∈ [0x2B, 0x2D] || (0x30 ≤ c.toNat && c.toNat ≤ 0x39) ||
    (0x41 ≤ c.toNat && c.toNat ≤ 0x5A) || (0x61 ≤ c.toNat && c.toNat ≤ 0x7A)

/-- A digit is a character of integers. -/
theorem isIntegerCharacter_of_toDigit {d : ℕ} (h : toDigit base c = some d) :
    isIntegerCharacter c = true := by
  have hrange := (toDigit_eq_some_iff.mp h).2
  simp only [isIntegerCharacter, Bool.or_eq_true, Bool.and_eq_true, decide_eq_true_eq]
  omega

/-- Digits are characters of integers. -/
theorem isIntegerCharacter_of_isDigits (h : IsDigits base s digits) :
    ∀ c ∈ s, isIntegerCharacter c = true := by
  induction h with
  | nil => exact fun c hc => absurd hc List.not_mem_nil
  | cons hd _ ih =>
      intro c hc
      cases List.mem_cons.mp hc with
      | inl heq => exact heq ▸ isIntegerCharacter_of_toDigit hd
      | inr hmem => exact ih c hmem

/-- A sign is a character of integers. -/
theorem isIntegerCharacter_of_isSign {sign : List Char} {negative : Bool}
    (h : IsSign sign negative) : ∀ c ∈ sign, isIntegerCharacter c = true := by
  cases h <;> simp <;> decide

/-- The letter of a prefix is a character of integers. -/
theorem isIntegerCharacter_of_prefixBase (h : prefixBase c = some base) :
    isIntegerCharacter c = true := by
  rw [prefixBase] at h
  split_ifs at h with h2 h8 h16
  · rcases h2 with rfl | rfl <;> decide
  · rcases h8 with rfl | rfl <;> decide
  · rcases h16 with rfl | rfl <;> decide

/-- The characters of literals are no white space of either kind. -/
theorem not_whitespace_of_isIntegerCharacter (h : isIntegerCharacter c = true) :
    isWhitespace c = false ∧ (isWhiteSpace c || isLineTerminatorChar c) = false := by
  have hbounds : 0x20 < c.toNat ∧ c.toNat < 0x80 := by
    simp only [isIntegerCharacter, Bool.or_eq_true, Bool.and_eq_true, decide_eq_true_eq,
      List.mem_cons, List.not_mem_nil, or_false] at h
    omega
  clear h
  constructor
  · simp only [isWhitespace, Bool.or_eq_false_iff, Bool.and_eq_false_iff, decide_eq_false_iff_not,
      List.mem_cons, List.not_mem_nil, or_false]
    omega
  · simp only [isWhiteSpace, isLineTerminatorChar, Bool.or_eq_false_iff, Bool.and_eq_false_iff,
      decide_eq_false_iff_not, List.mem_cons, List.not_mem_nil, or_false]
    omega

/-- The two notions of white space differ in two characters. -/
theorem isWhitespace_eq (hbom : c ≠ Char.ofNat 0xFEFF) (hnext : c ≠ Char.ofNat 0x85) :
    isWhitespace c = (isWhiteSpace c || isLineTerminatorChar c) := by
  have hbom : c.toNat ≠ 0xFEFF := fun h => hbom (Char.toNat_inj.mp h)
  have hnext : c.toNat ≠ 0x85 := fun h => hnext (Char.toNat_inj.mp h)
  have hcontrol : 0x9 ≤ c.toNat ∧ c.toNat ≤ 0xD ↔ c.toNat = 0x9 ∨ c.toNat = 0xA ∨ c.toNat = 0xB ∨
      c.toNat = 0xC ∨ c.toNat = 0xD := by omega
  rw [Bool.eq_iff_iff]
  simp only [isWhitespace, isWhiteSpace, isLineTerminatorChar, Bool.or_eq_true,
    Bool.and_eq_true, decide_eq_true_eq, List.mem_cons, List.not_mem_nil, or_false, hcontrol, hbom,
    hnext, false_or]
  -- the same characters, in another order
  refine Iff.of_eq ?_
  ac_rfl

/-! ### Trimming -/

/-- What is not dropped from the front is still there. -/
theorem mem_dropWhile {p : Char → Bool} (hmem : c ∈ text) (hp : p c = false) :
    c ∈ text.dropWhile p := by
  have hsplit := List.takeWhile_append_dropWhile (p := p) (l := text)
  rw [← hsplit, List.mem_append] at hmem
  refine hmem.resolve_left fun htake => ?_
  rw [List.mem_takeWhile_imp htake] at hp
  cases hp

/-- What is not trimmed is still there. -/
theorem mem_trimMatches {p : Char → Bool} (hmem : c ∈ text) (hp : p c = false) :
    c ∈ trimMatches p text := by
  rw [trimMatches, List.rdropWhile, List.mem_reverse]
  exact mem_dropWhile (List.mem_reverse.mpr (mem_dropWhile hmem hp)) hp

/-- Trimming depends on the test for the characters of the text only. -/
theorem trimMatches_congr {p q : Char → Bool} (h : ∀ c ∈ text, p c = q c) :
    trimMatches p text = trimMatches q text := by
  have hdrop : ∀ {xs : List Char}, (∀ c ∈ xs, p c = q c) → xs.dropWhile p = xs.dropWhile q := by
    intro xs hxs
    induction xs with
    | nil => rfl
    | cons x xs ih =>
        rw [List.dropWhile_cons, List.dropWhile_cons, hxs x List.mem_cons_self,
          ih fun c hc => hxs c (List.mem_cons_of_mem _ hc)]
  rw [trimMatches, trimMatches, List.rdropWhile, List.rdropWhile, hdrop h, hdrop]
  intro c hc
  exact h c ((List.dropWhile_sublist q).subset (List.mem_reverse.mp hc))

/-- Nothing is trimmed from a text without such characters. -/
theorem trimMatches_eq_self {p : Char → Bool} (h : ∀ c ∈ text, p c = false) :
    trimMatches p text = text := by
  have hdrop : ∀ {xs : List Char}, (∀ c ∈ xs, p c = false) → xs.dropWhile p = xs := by
    intro xs hxs
    cases xs with
    | nil => rfl
    | cons x xs => rw [List.dropWhile_cons, hxs x List.mem_cons_self, if_neg Bool.false_ne_true]
  rw [trimMatches, List.rdropWhile, hdrop h, hdrop, List.reverse_reverse]
  exact fun c hc => h c (List.mem_reverse.mp hc)

/-! ### What is read -/

/-- A text is a sign and digits. -/
def IsSignedDigits (base : ℕ) (text : List Char) (v : ℤ) : Prop :=
  ∃ sign negative s digits, text = sign ++ s ∧ IsSign sign negative ∧ s ≠ [] ∧
    IsDigits base s digits ∧ v = signed negative (ofDigits base digits)

/-- **Without underscores** the library reads signs and digits. -/
theorem parse_iff (hparse : ReadsIntegers parse) (hplain : '_' ∉ text) :
    parse base text = some v ↔ IsSignedDigits base text v := by
  constructor
  · intro h
    obtain ⟨sign, negative, s, digits, rfl, hsign, hne, hdigits, rfl⟩ := hparse.sound h
    have hfilter : s.filter (· ≠ '_') = s := by
      refine List.filter_eq_self.mpr fun c hc => decide_eq_true ?_
      rintro rfl
      exact hplain (List.mem_append_right _ hc)
    rw [hfilter] at hne hdigits
    exact ⟨sign, negative, s, digits, rfl, hsign, hne, hdigits, rfl⟩
  · rintro ⟨sign, negative, s, digits, rfl, hsign, hne, hdigits, rfl⟩
    exact hparse.separated hsign (.digits hne hdigits)

/-- No text of the form `0b…`, `0o…` or `0x…`. -/
def NoPrefix (t : List Char) : Prop := ∀ c s base, t = '0' :: c :: s → prefixBase c ≠ some base

/-- A prefix is split off, and gives the radix. -/
theorem splitRadix_prefix (hbase : prefixBase c = some base) :
    splitRadix ('0' :: c :: s) = (base, s) := by
  simp only [splitRadix, hbase]

/-- A text without a prefix has the radix ten. -/
theorem splitRadix_of_noPrefix (h : NoPrefix t) : splitRadix t = (10, t) := by
  unfold splitRadix
  split
  · next c rest =>
      cases hbase : prefixBase c with
      | none => rfl
      | some base => exact absurd hbase (h c rest base rfl)
  · rfl

/-- A text is empty, or begins with a prefix, or does not. -/
theorem prefix_cases (t : List Char) :
    t = [] ∨ (∃ c base s, prefixBase c = some base ∧ t = '0' :: c :: s) ∨ t ≠ [] ∧ NoPrefix t := by
  by_cases hnil : t = []
  · exact .inl hnil
  · by_cases hprefix : ∃ c base s, prefixBase c = some base ∧ t = '0' :: c :: s
    · exact .inr (.inl hprefix)
    · exact .inr (.inr ⟨hnil, fun c s base heq hbase => hprefix ⟨c, base, s, hbase, heq⟩⟩)

/-- What begins with a prefix is a literal exactly if digits of its base follow, without a sign. -/
theorem IntegerLiteral.prefix_iff (hbase : prefixBase c = some base) :
    IntegerLiteral ('0' :: c :: s) v ↔
      ∃ digits, s ≠ [] ∧ IsDigits base s digits ∧ v = ofDigits base digits := by
  constructor
  · intro h
    generalize htext : '0' :: c :: s = text at h
    cases h with
    | empty => cases htext
    | decimal hsign _ hdigits =>
        have hc : isDecimalCharacter c = true := by
          have hmem : c ∈ '0' :: c :: s := by simp
          rw [htext] at hmem
          rcases List.mem_append.mp hmem with hmem | hmem
          · exact hsign.isDecimalCharacter c hmem
          · exact hdigits.isDecimalCharacter c hmem
        rw [(isDecimalCharacter_of_prefixBase hbase).1] at hc
        cases hc
    | nonDecimal hbase' hne hdigits =>
        simp only [List.cons.injEq, true_and] at htext
        obtain ⟨rfl, rfl⟩ := htext
        rw [hbase, Option.some.injEq] at hbase'
        subst hbase'
        exact ⟨_, hne, hdigits, rfl⟩
  · rintro ⟨digits, hne, hdigits, rfl⟩
    exact .nonDecimal hbase hne hdigits

/-- What has no prefix is a literal exactly if it is decimal digits with an optional sign. -/
theorem IntegerLiteral.iff_of_noPrefix (hne : t ≠ []) (h : NoPrefix t) :
    IntegerLiteral t v ↔ IsSignedDigits 10 t v := by
  constructor
  · intro hliteral
    cases hliteral with
    | empty => exact absurd rfl hne
    | decimal hsign hne' hdigits => exact ⟨_, _, _, _, rfl, hsign, hne', hdigits, rfl⟩
    | nonDecimal hbase _ _ => exact absurd hbase (h _ _ _ rfl)
  · rintro ⟨sign, negative, s, digits, rfl, hsign, hne, hdigits, rfl⟩
    exact .decimal hsign hne hdigits

/-- The empty literal is zero. -/
theorem IntegerLiteral.nil_iff : IntegerLiteral [] v ↔ v = 0 := by
  constructor
  · intro h
    generalize htext : [] = text at h
    cases h with
    | empty => rfl
    | decimal _ hne _ => exact absurd (List.append_eq_nil_iff.mp htext.symm).2 hne
    | nonDecimal _ _ _ => cases htext
  · rintro rfl
    exact .empty

/-- Literals consist of characters of integers. -/
theorem IntegerLiteral.isIntegerCharacter (h : IntegerLiteral t v) :
    ∀ c ∈ t, isIntegerCharacter c = true := by
  cases h with
  | empty => exact fun c hc => absurd hc List.not_mem_nil
  | decimal hsign _ hdigits =>
      intro c hc
      rcases List.mem_append.mp hc with hc | hc
      · exact isIntegerCharacter_of_isSign hsign c hc
      · exact isIntegerCharacter_of_isDigits hdigits c hc
  | nonDecimal hbase _ hdigits =>
      intro c hc
      rcases List.mem_cons.mp hc with rfl | hc
      · decide
      rcases List.mem_cons.mp hc with rfl | hc
      · exact isIntegerCharacter_of_prefixBase hbase
      · exact isIntegerCharacter_of_isDigits hdigits c hc

/-- Other characters are in no literal. -/
theorem IntegerLiteral.not_mem (h : IntegerLiteral t v) (hc : JsBigInt.isIntegerCharacter c = false) :
    c ∉ t := by
  intro hmem
  rw [h.isIntegerCharacter c hmem] at hc
  cases hc

/-- Nothing is read of a text with other characters. -/
theorem parse_chars (hparse : ReadsIntegers parse) (h : parse base t = some v) (hmem : c ∈ t) :
    isIntegerCharacter c = true ∨ c = '_' := by
  obtain ⟨sign, negative, s, digits, rfl, hsign, -, hdigits, -⟩ := hparse.sound h
  by_cases hunderscore : c = '_'
  · exact .inr hunderscore
  rcases List.mem_append.mp hmem with hmem | hmem
  · exact .inl (isIntegerCharacter_of_isSign hsign c hmem)
  · exact .inl (isIntegerCharacter_of_isDigits hdigits c
      (List.mem_filter.mpr ⟨hmem, decide_eq_true hunderscore⟩))

/-- A text with a character that is neither one of integers nor an underscore is rejected. -/
theorem readTrimmed_eq_none (hparse : ReadsIntegers parse) (hmem : c ∈ t)
    (hc : isIntegerCharacter c = false) (hc' : c ≠ '_') : readTrimmed parse t = none := by
  have hno : ¬ (isIntegerCharacter c = true ∨ c = '_') := by
    rintro (h | h)
    · rw [hc] at h
      cases h
    · exact hc' h
  refine Option.eq_none_iff_forall_ne_some.mpr fun v h => hno ?_
  rcases prefix_cases t with rfl | ⟨c', base, s, hbase, rfl⟩ | ⟨hne, hprefix⟩
  · cases hmem
  · rw [readTrimmed, if_neg (List.cons_ne_nil _ _), splitRadix_prefix hbase] at h
    rcases List.mem_cons.mp hmem with rfl | hmem
    · exact .inl (by decide)
    rcases List.mem_cons.mp hmem with rfl | hmem
    · exact .inl (isIntegerCharacter_of_prefixBase hbase)
    · exact parse_chars hparse h hmem
  · rw [readTrimmed, if_neg hne, splitRadix_of_noPrefix hprefix] at h
    exact parse_chars hparse h hmem

/-- **What is read**, if it is not beyond the grammar, is a literal. -/
theorem readTrimmed_iff (hparse : ReadsIntegers parse) (h : ¬ Extended parse t) :
    readTrimmed parse t = some v ↔ IntegerLiteral t v := by
  by_cases hmem : '_' ∈ t
  · have hnone : readTrimmed parse t = none := by
      rw [readTrimmed, if_neg (List.ne_nil_of_mem hmem)]
      by_contra hsome
      exact h (.underscore hmem (Option.isSome_iff_ne_none.mpr hsome))
    rw [hnone]
    exact iff_of_false (fun h => by cases h) fun hliteral => hliteral.not_mem (by decide) hmem
  rcases prefix_cases t with rfl | ⟨c, base, s, hbase, rfl⟩ | ⟨hne, hprefix⟩
  · rw [readTrimmed, if_pos rfl, Option.some.injEq, IntegerLiteral.nil_iff, eq_comm]
  · have hmem : '_' ∉ s := fun h => hmem (by simp [h])
    rw [readTrimmed, if_neg (List.cons_ne_nil _ _), splitRadix_prefix hbase,
      IntegerLiteral.prefix_iff hbase, parse_iff hparse hmem]
    constructor
    · rintro ⟨sign, negative, s, digits, rfl, hsign, hne, hdigits, rfl⟩
      cases hsign with
      | none => exact ⟨digits, hne, hdigits, rfl⟩
      | plus => exact absurd (.sign hbase (.inl rfl) hne hdigits) h
      | minus => exact absurd (.sign hbase (.inr rfl) hne hdigits) h
    · rintro ⟨digits, hne, hdigits, rfl⟩
      exact ⟨[], false, s, digits, rfl, .none, hne, hdigits, rfl⟩
  · rw [readTrimmed, if_neg hne, splitRadix_of_noPrefix hprefix,
      IntegerLiteral.iff_of_noPrefix hne hprefix]
    exact parse_iff hparse hmem

/-- What is beyond the grammar is read, and no literal. -/
theorem Extended.read (hparse : ReadsIntegers parse) (h : Extended parse t) :
    (∃ v, readTrimmed parse t = some v) ∧ ∀ v, ¬ IntegerLiteral t v := by
  cases h with
  | @sign c base sign s digits hbase hsign hne hdigits =>
      obtain ⟨negative, hsigned⟩ : ∃ negative, IsSign [sign] negative := by
        rcases hsign with rfl | rfl
        · exact ⟨false, .plus⟩
        · exact ⟨true, .minus⟩
      have hread := hparse.separated hsigned (.digits hne hdigits)
      constructor
      · rw [readTrimmed, if_neg (List.cons_ne_nil _ _), splitRadix_prefix hbase]
        exact ⟨_, hread⟩
      · intro v hliteral
        obtain ⟨digits', -, hdigits', -⟩ := (IntegerLiteral.prefix_iff hbase).mp hliteral
        have hno := hdigits'.ne_sign_of_cons
        exact hsign.elim hno.1 hno.2
  | underscore hmem hsome =>
      constructor
      · rw [readTrimmed, if_neg (List.ne_nil_of_mem hmem)]
        exact Option.isSome_iff_exists.mp hsome
      · exact fun v hliteral => hliteral.not_mem (by decide) hmem

/-! ### Strings -/

/-- A string is read as the grammar says. -/
def Reads (parse : ℕ → List Char → Option ℤ) (string : JsStr) : Prop :=
  ∀ v, fromJsString parse string = some v ↔ StringIntegerLiteral string v

/-- A literal next to a byte order mark is not read. -/
theorem fromString_of_byteOrderMark (hparse : ReadsIntegers parse)
    (hmem : Char.ofNat 0xFEFF ∈ text) : fromString parse text = none :=
  readTrimmed_eq_none hparse (mem_trimMatches hmem (by decide)) (by decide) (by decide)

/-- Without the two characters in which they differ, both trimmings give the same. -/
theorem trimmed_eq (hbom : Char.ofNat 0xFEFF ∉ text) (hnext : Char.ofNat 0x85 ∉ text) :
    trimMatches isWhitespace text = trimmed text :=
  trimMatches_congr fun _ hc =>
    isWhitespace_eq (fun h => hbom (h ▸ hc)) (fun h => hnext (h ▸ hc))

/-- **A text is read as the grammar says** if and only if it is not misread. -/
theorem fromString_iff (hparse : ReadsIntegers parse) (text : List Char) :
    (∀ v, fromString parse text = some v ↔ IntegerLiteral (trimmed text) v) ↔
      ¬ Misread parse text := by
  by_cases hliteral : ∃ v, IntegerLiteral (trimmed text) v
  · obtain ⟨v, hliteral⟩ := hliteral
    by_cases hbom : Char.ofNat 0xFEFF ∈ text
    · refine iff_of_false (fun h => ?_) (fun h => h (.byteOrderMark hliteral hbom))
      have hread := (h v).mpr hliteral
      rw [fromString_of_byteOrderMark hparse hbom] at hread
      cases hread
    · have hnext : Char.ofNat 0x85 ∉ text := fun hmem =>
        hliteral.not_mem (by decide) (mem_trimMatches hmem (by decide))
      have heq := trimmed_eq hbom hnext
      have hplain : ¬ Extended parse (trimMatches isWhitespace text) := fun h =>
        (h.read hparse).2 v (heq ▸ hliteral)
      refine iff_of_true ?_ ?_
      · intro w
        rw [fromString, readTrimmed_iff hparse hplain, heq]
      · rintro (⟨-, hmem⟩ | ⟨-, hmem⟩ | hextended)
        · exact hbom hmem
        · exact hnext hmem
        · exact hplain hextended
  · have hreads : (∀ v, fromString parse text = some v ↔ IntegerLiteral (trimmed text) v) ↔
        fromString parse text = none := by
      rw [Option.eq_none_iff_forall_ne_some]
      exact forall_congr' fun v => iff_false_right fun h => hliteral ⟨v, h⟩
    rw [hreads]
    by_cases hextended : Extended parse (trimMatches isWhitespace text)
    · refine iff_of_false (fun h => ?_) (fun h => h (.extended hextended))
      obtain ⟨v, hv⟩ := (hextended.read hparse).1
      rw [fromString, hv] at h
      cases h
    · by_cases hwide : ∃ v, IntegerLiteral (trimMatches isWhitespace text) v
      · obtain ⟨v, hwide⟩ := hwide
        have hread := (readTrimmed_iff hparse hextended).mpr hwide
        have hbom : Char.ofNat 0xFEFF ∉ text := by
          intro hmem
          rw [← fromString, fromString_of_byteOrderMark hparse hmem] at hread
          cases hread
        have hnext : Char.ofNat 0x85 ∈ text := by
          by_contra hnext
          exact hliteral ⟨v, trimmed_eq hbom hnext ▸ hwide⟩
        refine iff_of_false (fun h => ?_) (fun h => h (.nextLine hwide hnext))
        rw [fromString, hread] at h
        cases h
      · refine iff_of_true ?_ ?_
        · refine Option.eq_none_iff_forall_ne_some.mpr fun v hv => hwide ⟨v, ?_⟩
          exact (readTrimmed_iff hparse hextended).mp hv
        · rintro (⟨h, -⟩ | ⟨h, -⟩ | h)
          · exact hliteral ⟨_, h⟩
          · exact hwide ⟨_, h⟩
          · exact hextended h

/-- A string with a text is converted as its text is. -/
theorem fromJsString_of_isText {string : JsStr} (htext : string.IsText text) :
    fromJsString parse string = fromString parse text := by
  rw [fromJsString, toStdString_eq_some_iff.mpr htext, Option.bind_some]

/-- A string has one text. -/
theorem JsStr.IsText.unique {string : JsStr} {text' : List Char} (h : string.IsText text)
    (h' : string.IsText text') : text = text' := by
  rw [← toStdString_eq_some_iff] at h h'
  exact Option.some.inj (h.symm.trans h')

/-- **Strings as BigInts**: a string is read as the grammar says if and only if its text, if it has
one, is not misread. -/
theorem reads_iff_not_misread (hparse : ReadsIntegers parse) (string : JsStr) :
    Reads parse string ↔ ∀ text, string.IsText text → ¬ Misread parse text := by
  by_cases htext : ∃ text, string.IsText text
  · obtain ⟨text, htext⟩ := htext
    have hliteral (v : ℤ) :
        StringIntegerLiteral string v ↔ IntegerLiteral (trimmed text) v := by
      constructor
      · rintro ⟨text', htext', h⟩
        exact JsStr.IsText.unique htext' htext ▸ h
      · exact fun h => ⟨text, htext, h⟩
    simp only [Reads, hliteral, fromJsString_of_isText htext]
    rw [fromString_iff hparse]
    constructor
    · exact fun h text' htext' => JsStr.IsText.unique htext htext' ▸ h
    · exact fun h => h text htext
  · have hnone : string.toStdString = none := by
      refine Option.eq_none_iff_forall_ne_some.mpr fun text h => ?_
      exact htext ⟨text, toStdString_eq_some_iff.mp h⟩
    refine iff_of_true (fun v => iff_of_false ?_ ?_) fun text h => absurd ⟨text, h⟩ htext
    · rw [fromJsString, hnone]
      exact fun h => by cases h
    · rintro ⟨text, h, -⟩
      exact htext ⟨text, h⟩

/-! ### Decimal strings -/

/-- The decimal string of a BigInt. -/
def decimalString (b : ℤ) : List Char :=
  (if b < 0 then ['-'] else []) ++ Nat.toDigits 10 b.natAbs

/-- What an integer is written as is a literal with its value. -/
theorem integerLiteral_decimalString (b : ℤ) : IntegerLiteral (decimalString b) b := by
  obtain ⟨digits, hdigits, hvalue⟩ := isDigits_toDigits b.natAbs
  have hne : Nat.toDigits 10 b.natAbs ≠ [] := Nat.toDigits_ne_nil
  rw [decimalString]
  split
  · have hb : b = signed true (ofDigits 10 digits) := by
      rw [signed, if_pos rfl]
      omega
    nth_rewrite 2 [hb]
    exact .decimal .minus hne hdigits
  · have hb : b = signed false (ofDigits 10 digits) := by
      rw [signed, if_neg Bool.false_ne_true]
      omega
    nth_rewrite 2 [hb]
    exact .decimal .none hne hdigits

/-- **The decimal string of a BigInt** is read as that BigInt. -/
theorem fromJsString_decimalString (hparse : ReadsIntegers parse) {string : JsStr} {b : ℤ}
    (htext : string.IsText (decimalString b)) : fromJsString parse string = some b := by
  have hliteral := integerLiteral_decimalString b
  have htrim : trimMatches isWhitespace (decimalString b) = decimalString b :=
    trimMatches_eq_self fun c hc =>
      (not_whitespace_of_isIntegerCharacter (hliteral.isIntegerCharacter c hc)).1
  rw [fromJsString_of_isText htext, fromString, htrim]
  exact (readTrimmed_iff hparse fun h => (h.read hparse).2 b hliteral).mpr hliteral

/-! ### A parser as documented -/

/-- Digits, with underscores left out. -/
def digitsOf (radix : ℕ) : List Char → Option (List ℕ)
  | [] => some []
  | c :: s =>
      if c = '_' then digitsOf radix s
      else (toDigit radix c).bind fun d => (digitsOf radix s).map (d :: ·)

/-- An optional sign, and what follows it. -/
def splitSign : List Char → Bool × List Char
  | '-' :: s => (true, s)
  | '+' :: s => (false, s)
  | s => (false, s)

/-- `parse_bytes`: an optional sign, a digit, and digits and underscores. -/
def parseBytes (radix : ℕ) (text : List Char) : Option ℤ :=
  let (negative, s) := splitSign text
  if s = [] ∨ s.head? = some '_' then none
  else (digitsOf radix s).map fun digits => signed negative (ofDigits radix digits)

/-- A sign is split off, if there is one. -/
theorem exists_sign (text : List Char) :
    ∃ sign, text = sign ++ (splitSign text).2 ∧ IsSign sign (splitSign text).1 := by
  unfold splitSign
  split
  · exact ⟨['-'], rfl, .minus⟩
  · exact ⟨['+'], rfl, .plus⟩
  · exact ⟨[], rfl, .none⟩

/-- The digits that are read are those that are left without the underscores. -/
theorem digitsOf_eq_some_iff :
    digitsOf base s = some digits ↔ IsDigits base (s.filter (· ≠ '_')) digits := by
  induction s generalizing digits with
  | nil => simp [digitsOf, IsDigits, eq_comm]
  | cons c s ih =>
      rw [digitsOf]
      split
      · next h => rw [List.filter_cons, if_neg (by simp [h]), ih]
      · next h =>
          rw [List.filter_cons, if_pos (by simp [h]), Option.bind_eq_some_iff]
          simp only [Option.map_eq_some_iff, ih, IsDigits, List.forall₂_cons_left_iff]
          grind

/-- Digits with underscores between them are digits without these. -/
theorem IsSeparated.filter (h : IsSeparated base s digits) :
    IsDigits base (s.filter (· ≠ '_')) digits := by
  have hplain {s : List Char} {digits : List ℕ} (h : IsDigits base s digits) :
      s.filter (· ≠ '_') = s := by
    refine List.filter_eq_self.mpr fun c hc => decide_eq_true ?_
    rintro rfl
    have := isIntegerCharacter_of_isDigits h '_' hc
    revert this
    decide
  induction h with
  | digits _ h => exact (hplain h).symm ▸ h
  | underscore _ h _ ih =>
      rw [List.filter_append, List.filter_cons, if_neg (by simp), hplain h]
      exact List.rel_append h ih

/-- What is separated by underscores begins with a digit. -/
theorem IsSeparated.first (h : IsSeparated base s digits) :
    ∃ c d r, s = c :: r ∧ toDigit base c = some d := by
  cases h with
  | digits hne h =>
      cases h with
      | nil => exact absurd rfl hne
      | cons hd _ => exact ⟨_, _, _, rfl, hd⟩
  | underscore hne h _ =>
      cases h with
      | nil => exact absurd rfl hne
      | cons hd _ => exact ⟨_, _, _, rfl, hd⟩

/-- The parser of the library reads what it is documented to read. -/
theorem readsIntegers_parseBytes : ReadsIntegers parseBytes := by
  constructor
  · intro radix sign negative s digits hsign hs
    obtain ⟨c, d, r, rfl, hd⟩ := hs.first
    have hchar := isIntegerCharacter_of_toDigit hd
    have hunderscore : c ≠ '_' := by
      rintro rfl
      revert hchar
      decide
    have hplus : c ≠ '+' := fun h => not_digit_of_sign (.inl h) _ hd
    have hminus : c ≠ '-' := fun h => not_digit_of_sign (.inr h) _ hd
    have hread := digitsOf_eq_some_iff.mpr hs.filter
    cases hsign <;> simp_all [parseBytes, splitSign]
  · intro radix text v h
    obtain ⟨sign, htext, hsign⟩ := exists_sign text
    simp only [parseBytes] at h
    split at h
    · cases h
    · next hfirst =>
        obtain ⟨digits, hdigits, rfl⟩ := Option.map_eq_some_iff.mp h
        refine ⟨sign, _, _, digits, htext, hsign, ?_, digitsOf_eq_some_iff.mp hdigits, rfl⟩
        cases hs : (splitSign text).2 with
        | nil => exact absurd (.inl hs) hfirst
        | cons c r =>
            have hc : c ≠ '_' := fun h => hfirst (.inr (by rw [hs, h]; rfl))
            simp [hc]

end BoaLigero.JsBigInt
