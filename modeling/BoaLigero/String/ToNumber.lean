import BoaLigero.String.DecimalLiteral
import BoaLigero.String.JsStr
import BoaLigero.Util.RoundedDigits

/-!
# Strings as Numbers

`StringToNumber` (`JsStr::to_number`): literals with a base are read as machine integers, or digit
by digit with doubles where they do not fit, and everything else by a library parser of doubles.

## Main results

* `toNumber_iff` — the strings that are read as the grammar says.
* `toNumber_of_isText` — decimal integers are read with their value.
-/

namespace BoaLigero

open Digits F64

/-! ### The functions -/

/-- The characters of a string without unpaired surrogates (`to_std_string`). -/
def JsStr.toStdString : JsStr → Option (List Char)
  | latin1 v => some (v.map fun b => Char.ofNat b.toNat)
  | utf16 v => (decodeUtf16 v).mapM Except.toOption

/-- `trim_matches`. -/
def trimMatches (p : Char → Bool) (string : List Char) : List Char :=
  (string.dropWhile p).rdropWhile p

/-- The base that the character after a `0` stands for. -/
def prefixBase (c : Char) : Option ℕ :=
  if c = 'b' ∨ c = 'B' then some 2
  else if c = 'o' ∨ c = 'O' then some 8
  else if c = 'x' ∨ c = 'X' then some 16
  else none

/-- The slow path: the digits with doubles. -/
def slowDigits (base : ℕ) : List Char → F64 → F64
  | [], value => value
  | c :: rest, value =>
      match toDigit base c with
      | some digit => slowDigits base rest (mulAdd value (double base) (double digit))
      | none => nan

/-- A number that begins with `0b`, `0o` or `0x`, after that. -/
def parsePrefixed (base : ℕ) (string : List Char) : F64 :=
  if string = [] then nan
  else
    match fromStrRadix 32 base string with
    | some value => double value
    | none => slowDigits base string (double 0)

/-- `to_number` of the trimmed characters. All bytes that are looked at are ASCII. -/
def numberOfTrimmed (parse : List Char → Option F64) (string : List Char) : F64 :=
  if string = [] then zero false
  else if string = "-Infinity".toList then infinity true
  else if string = "Infinity".toList ∨ string = "+Infinity".toList then infinity false
  else
    let base := if string.head? = some '0' then string[1]?.bind prefixBase else none
    match base with
    | some base => parsePrefixed base (string.drop 2)
    | none =>
        -- Make sure that no further variants of "infinity" are parsed.
        if string.head? = some 'i' ∨ string.head? = some 'I' then nan
        else (parse string).getD nan

/-- `to_number`; `parse` is `fast_float2::parse`. -/
def JsStr.toNumber (parse : List Char → Option F64) (s : JsStr) : F64 :=
  match s.toStdString with
  | none => nan
  | some string => numberOfTrimmed parse (trimMatches isTrimmableWhitespace string)

/-! ### The grammar -/

/-- `WhiteSpace`. -/
def isWhiteSpace (c : Char) : Bool :=
  c.toNat ∈ [0x9, 0xB, 0xC, 0xFEFF] ||
    -- `Space_Separator`
    c.toNat ∈ [0x20, 0xA0, 0x1680, 0x202F, 0x205F, 0x3000] ||
      (0x2000 ≤ c.toNat && c.toNat ≤ 0x200A)

/-- `LineTerminator`. -/
def isLineTerminatorChar (c : Char) : Bool := c.toNat ∈ [0xA, 0xD, 0x2028, 0x2029]

/-- `StrNumericLiteral`, and its value, correctly rounded. -/
inductive StrNumericLiteral : List Char → F64 → Prop
  | decimal {sign negative s q} (hsign : IsSign sign negative) (hdecimal : UnsignedDecimal s q) :
      StrNumericLiteral (sign ++ s) (signedDouble negative q)
  | infinity {sign negative} (hsign : IsSign sign negative) :
      StrNumericLiteral (sign ++ "Infinity".toList) (F64.infinity negative)
  | nonDecimal {c base s digits} (hbase : prefixBase c = some base) (hne : s ≠ [])
      (hdigits : IsDigits base s digits) :
      StrNumericLiteral ('0' :: c :: s) (double (ofDigits base digits))

/-- `StringNumericLiteral` without the white space around it: what is empty denotes zero. -/
inductive TrimmedLiteral : List Char → F64 → Prop
  | empty : TrimmedLiteral [] (zero false)
  | literal {s v} (h : StrNumericLiteral s v) : TrimmedLiteral s v

/-- The code points of a string are these characters. -/
def JsStr.IsText (s : JsStr) (text : List Char) : Prop :=
  (decodeUtf16 s.iter).map CodePoint.ofDecoded = text.map .unicode

/-- White space and line terminators are trimmed. -/
def trimmed (text : List Char) : List Char :=
  trimMatches (fun c => isWhiteSpace c || isLineTerminatorChar c) text

/-- `StringNumericLiteral`, and its value. -/
def StringNumericLiteral (s : JsStr) (v : F64) : Prop :=
  ∃ text, s.IsText text ∧ TrimmedLiteral (trimmed text) v

/-- `StringToNumber`: the value of the literal, or what is not a number if there is none. -/
def StringToNumber (s : JsStr) (result : F64) : Prop :=
  (result.isNaN = false ↔ ∃ v, StringNumericLiteral s v) ∧
    ∀ v, StringNumericLiteral s v → result = v

/-- The texts that are misread: a sign after the prefix of a base, further variants of a signed
`Infinity`, and digits that break a tie after the rounding. -/
inductive Misread : List Char → Prop
  | sign {c base s digits} (hbase : prefixBase c = some base) (hne : s ≠ [])
      (hdigits : IsDigits base s digits) (hfits : ofDigits base digits < 2 ^ 32) :
      Misread ('0' :: c :: '+' :: s)
  | infinity {sign word} (hsign : sign = '+' ∨ sign = '-')
      (hword : word.map Char.toLower = "inf".toList ∨ word.map Char.toLower = "infinity".toList)
      (hne : word ≠ "Infinity".toList) : Misread (sign :: word)
  | tie {c base s digits} (hbase : prefixBase c = some base) (hdigits : IsDigits base s digits)
      (htie : BrokenTie base digits) : Misread ('0' :: c :: s)

/-! ### The grammar is unambiguous -/

variable {t : List Char} {v v' r : F64}

/-- A literal of the grammar never denotes a NaN. -/
theorem TrimmedLiteral.isNaN (h : TrimmedLiteral t v) : v.isNaN = false := by
  cases h with
  | empty => decide
  | literal h =>
      cases h with
      | decimal _ _ => exact isNaN_ofValue _ _
      | @infinity _ negative _ => cases negative <;> decide
      | nonDecimal _ _ _ => exact isNaN_double _

/-- The character of a prefix is none of a decimal literal. -/
theorem isDecimalCharacter_of_prefixBase {c : Char} {base : ℕ} (h : prefixBase c = some base) :
    isDecimalCharacter c = false ∧ c ≠ 'n' := by
  rw [prefixBase] at h
  split_ifs at h with h2 h8 h16
  · rcases h2 with rfl | rfl <;> decide
  · rcases h8 with rfl | rfl <;> decide
  · rcases h16 with rfl | rfl <;> decide

/-- The characters of a decimal literal with its sign are digits, signs, points and exponent
letters. -/
theorem not_decimal {sign s : List Char} {negative : Bool} {q : ℚ} {c : Char}
    (hsign : IsSign sign negative) (hdecimal : UnsignedDecimal s q) (hc : c ∈ sign ++ s) :
    isDecimalCharacter c = true := by
  rcases List.mem_append.mp hc with hc | hc
  · exact hsign.isDecimalCharacter c hc
  · exact hdecimal.isDecimalCharacter c hc

/-- A literal is not empty: the empty text is a case of its own. -/
theorem StrNumericLiteral.ne_nil (h : StrNumericLiteral t v) : t ≠ [] := by
  cases h with
  | decimal _ hdecimal =>
      obtain ⟨c, r, rfl, -⟩ := hdecimal.first
      simp
  | infinity _ => simp
  | nonDecimal _ _ _ => exact List.cons_ne_nil _ _

/-- A literal with the prefix of a base is digits of that base. -/
theorem StrNumericLiteral.of_prefix {c : Char} {base : ℕ} {s : List Char}
    (hbase : prefixBase c = some base) (h : StrNumericLiteral ('0' :: c :: s) v) :
    ∃ digits, s ≠ [] ∧ IsDigits base s digits ∧ v = double (ofDigits base digits) := by
  generalize htext : '0' :: c :: s = text at h
  cases h with
  | decimal hsign hdecimal =>
      have := not_decimal (c := c) hsign hdecimal (by rw [← htext]; simp)
      rw [(isDecimalCharacter_of_prefixBase hbase).1] at this
      cases this
  | infinity hsign => cases hsign <;> cases htext
  | nonDecimal hbase' hne hdigits =>
      simp only [List.cons.injEq, true_and] at htext
      obtain ⟨rfl, rfl⟩ := htext
      rw [hbase, Option.some.injEq] at hbase'
      subst hbase'
      exact ⟨_, hne, hdigits, rfl⟩

/-- **A literal has one value.** -/
theorem StrNumericLiteral.unique (h : StrNumericLiteral t v) (h' : StrNumericLiteral t v') :
    v = v' := by
  cases h with
  | decimal hsign hdecimal =>
      generalize htext : (_ : List Char) ++ _ = text at h'
      cases h' with
      | decimal hsign' hdecimal' =>
          obtain ⟨rfl, rfl⟩ := hsign.append_inj hsign'
            (fun _ _ heq => UnsignedDecimal.ne_sign (heq ▸ hdecimal))
            (fun _ _ heq => UnsignedDecimal.ne_sign (heq ▸ hdecimal')) htext
          rw [hdecimal.unique hdecimal']
      | infinity _ =>
          have := not_decimal (c := 'I') hsign hdecimal (by rw [htext]; simp)
          exact absurd this (by decide)
      | nonDecimal hbase _ _ =>
          have := not_decimal hsign hdecimal
            (by rw [htext]; exact List.mem_cons_of_mem _ List.mem_cons_self)
          rw [(isDecimalCharacter_of_prefixBase hbase).1] at this
          cases this
  | infinity hsign =>
      generalize htext : (_ : List Char) ++ _ = text at h'
      have hfirst (c : Char) (r : List Char) (h : "Infinity".toList = c :: r) :
          c ≠ '+' ∧ c ≠ '-' := by
        cases h
        decide
      cases h' with
      | decimal hsign' hdecimal' =>
          have := not_decimal (c := 'I') hsign' hdecimal' (by rw [← htext]; simp)
          exact absurd this (by decide)
      | infinity hsign' =>
          obtain ⟨rfl, -⟩ := hsign.append_inj hsign' hfirst hfirst htext
          rfl
      | nonDecimal _ _ _ => cases hsign <;> cases htext
  | nonDecimal hbase hne hdigits =>
      obtain ⟨digits, -, hdigits', rfl⟩ := StrNumericLiteral.of_prefix hbase h'
      rw [hdigits.unique hdigits']

/-- A text denotes one number at most, whichever way it is derived. -/
theorem TrimmedLiteral.unique (h : TrimmedLiteral t v) (h' : TrimmedLiteral t v') : v = v' := by
  cases h with
  | empty =>
      cases h' with
      | empty => rfl
      | literal h' => exact absurd rfl h'.ne_nil
  | literal h =>
      cases h' with
      | empty => exact absurd rfl h.ne_nil
      | literal h' => exact h.unique h'

/-! ### Literals with a base -/

/-- The result is the value of the trimmed literal, or not a number. -/
def Meets (t : List Char) (result : F64) : Prop :=
  (result.isNaN = false ↔ ∃ v, TrimmedLiteral t v) ∧ ∀ v, TrimmedLiteral t v → result = v

/-- For a literal, meeting the standard is answering its number. -/
theorem meets_iff_eq (h : TrimmedLiteral t v) : Meets t r ↔ r = v := by
  constructor
  · exact fun hmeets => hmeets.2 v h
  · rintro rfl
    exact ⟨iff_of_true h.isNaN ⟨r, h⟩, fun v h' => h.unique h'⟩

/-- For a text that is no literal, meeting the standard is answering a NaN. -/
theorem meets_iff_isNaN (h : ∀ v, ¬ TrimmedLiteral t v) : Meets t r ↔ r.isNaN = true := by
  have hnone : ¬ ∃ v, TrimmedLiteral t v := fun ⟨v, hv⟩ => h v hv
  rw [Meets, iff_false_right hnone, Bool.not_eq_false]
  exact and_iff_left fun v hv => absurd hv (h v)

section Prefixed

variable {base : ℕ} {c : Char} {s : List Char} {digits : List ℕ}

/-- The bases behind a prefix are powers of two, with few bits. -/
theorem exists_two_pow_of_prefixBase (h : prefixBase c = some base) :
    ∃ k, k < 53 ∧ base = 2 ^ k := by
  rw [prefixBase] at h
  split_ifs at h with h2 h8 h16
  · exact ⟨1, by decide, (Option.some.inj h).symm⟩
  · exact ⟨3, by decide, (Option.some.inj h).symm⟩
  · exact ⟨4, by decide, (Option.some.inj h).symm⟩

/-- The slow path adds up the digits one by one, rounding at each step. -/
theorem slowDigits_of_isDigits (h : IsDigits base s digits) (value : F64) :
    slowDigits base s value =
      digits.foldl (fun v d => mulAdd v (double base) (double d)) value := by
  induction h generalizing value with
  | nil => rfl
  | cons hd _ ih => rw [slowDigits, hd, List.foldl_cons, ← ih]

/-- The slow path answers a NaN where a character is no digit of the base. -/
theorem slowDigits_of_not (h : ∀ digits, ¬ IsDigits base s digits) (value : F64) :
    slowDigits base s value = nan := by
  induction s generalizing value with
  | nil => exact absurd .nil (h [])
  | cons c s ih =>
      rw [slowDigits]
      cases hd : toDigit base c with
      | none => rfl
      | some d => exact ih (fun digits hdigits => h (d :: digits) (.cons hd hdigits)) _

/-- What is read after the prefix of a base. -/
theorem parsePrefixed_cases (hbase : 0 < base) (s : List Char) :
    (∃ digits, s ≠ [] ∧ IsDigits base s digits ∧
      parsePrefixed base s =
        if ofDigits base digits < 2 ^ 32 then double (ofDigits base digits)
        else hornerDouble base digits) ∨
    (∃ s' digits, s = '+' :: s' ∧ s' ≠ [] ∧ IsDigits base s' digits ∧
      ofDigits base digits < 2 ^ 32 ∧ parsePrefixed base s = double (ofDigits base digits)) ∨
    (∀ digits, s ≠ [] → ¬ IsDigits base s digits) ∧
      (∀ s' digits, s = '+' :: s' → s' ≠ [] → IsDigits base s' digits →
        ¬ ofDigits base digits < 2 ^ 32) ∧ parsePrefixed base s = nan := by
  rw [parsePrefixed]
  split
  · next hnil =>
      refine .inr (.inr ⟨fun _ hne => absurd hnil hne, fun _ _ hplus => ?_, rfl⟩)
      rw [hnil] at hplus
      cases hplus
  · next hne =>
      cases hread : fromStrRadix 32 base s with
      | some n =>
          obtain ⟨s', digits, rfl | rfl, hne', hdigits, rfl, hfits⟩ :=
            (fromStrRadix_eq_some_iff hbase).mp hread
          · exact .inl ⟨digits, hne', hdigits, by rw [if_pos hfits]⟩
          · exact .inr (.inl ⟨s', digits, rfl, hne', hdigits, hfits, rfl⟩)
      | none =>
          have hunread (s' : List Char) (digits : List ℕ) (hs : s = s' ∨ s = '+' :: s')
              (hne' : s' ≠ []) (hdigits : IsDigits base s' digits) :
              ¬ ofDigits base digits < 2 ^ 32 := by
            intro hfits
            have : fromStrRadix 32 base s = some (ofDigits base digits) :=
              (fromStrRadix_eq_some_iff hbase).mpr ⟨s', digits, hs, hne', hdigits, rfl, hfits⟩
            rw [hread] at this
            cases this
          by_cases hdigits : ∃ digits, IsDigits base s digits
          · obtain ⟨digits, hdigits⟩ := hdigits
            refine .inl ⟨digits, hne, hdigits, ?_⟩
            rw [if_neg (hunread s digits (.inl rfl) hne hdigits)]
            exact slowDigits_of_isDigits hdigits _
          · refine .inr (.inr ⟨fun digits _ h => hdigits ⟨digits, h⟩,
              fun s' digits hs => hunread s' digits (.inr hs), ?_⟩)
            exact slowDigits_of_not (fun digits h => hdigits ⟨digits, h⟩) _

/-- A plus sign is no digit of any base. -/
theorem not_isDigits_plus {s' : List Char} : ¬ IsDigits base ('+' :: s') digits := fun h =>
  h.ne_sign_of_cons.1 rfl

/-- **Literals with a base** are read correctly, apart from a sign, and from ties that later digits
break. -/
theorem meets_prefixed_iff (hbase : prefixBase c = some base) :
    Meets ('0' :: c :: s) (parsePrefixed base s) ↔ ¬ Misread ('0' :: c :: s) := by
  obtain ⟨k, hk, hpow⟩ := exists_two_pow_of_prefixBase hbase
  have hpos : 0 < base := hpow ▸ Nat.two_pow_pos k
  have hliteral {v : F64} (h : TrimmedLiteral ('0' :: c :: s) v) :
      ∃ digits, s ≠ [] ∧ IsDigits base s digits ∧ v = double (ofDigits base digits) := by
    cases h with
    | literal h => exact h.of_prefix hbase
  have hmisread (h : Misread ('0' :: c :: s)) :
      (∃ s' digits, s = '+' :: s' ∧ s' ≠ [] ∧ IsDigits base s' digits ∧
        ofDigits base digits < 2 ^ 32) ∨
      ∃ digits, IsDigits base s digits ∧ BrokenTie base digits := by
    cases h with
    | sign hbase' hne hdigits hfits =>
        rw [hbase, Option.some.injEq] at hbase'
        subst hbase'
        exact .inl ⟨_, _, rfl, hne, hdigits, hfits⟩
    | infinity hsign _ _ => rcases hsign with h | h <;> cases h
    | tie hbase' hdigits htie =>
        rw [hbase, Option.some.injEq] at hbase'
        subst hbase'
        exact .inr ⟨_, hdigits, htie⟩
  obtain ⟨digits, hne, hdigits, heq⟩ | ⟨s', digits, rfl, hne, hdigits, hfits, heq⟩ |
    ⟨hno, hnoplus, heq⟩ := parsePrefixed_cases hpos s
  · have htie : Misread ('0' :: c :: s) ↔ BrokenTie base digits := by
      refine ⟨fun h => ?_, fun h => .tie hbase hdigits h⟩
      obtain ⟨s', _, rfl, -⟩ | ⟨digits', hdigits', htie⟩ := hmisread h
      · exact absurd hdigits not_isDigits_plus
      · rwa [hdigits.unique hdigits']
    rw [meets_iff_eq (.literal (.nonDecimal hbase hne hdigits)), heq, htie]
    split
    · next hfits =>
        exact iff_of_true rfl fun h => absurd (h.lt hpos) (by omega)
    · rw [hpow] at hdigits ⊢
      exact hornerDouble_eq_iff hk hdigits.lt
  · refine iff_of_false (fun h => ?_) (not_not.mpr (.sign hbase hne hdigits hfits))
    obtain ⟨v, hv⟩ := h.1.mp (by rw [heq]; exact isNaN_double _)
    obtain ⟨_, -, hplus, -⟩ := hliteral hv
    exact not_isDigits_plus hplus
  · have hnone (v : F64) : ¬ TrimmedLiteral ('0' :: c :: s) v := by
      intro h
      obtain ⟨digits, hne, hdigits, -⟩ := hliteral h
      exact hno digits hne hdigits
    rw [meets_iff_isNaN hnone, heq]
    refine iff_of_true (by decide) fun h => ?_
    obtain ⟨s', digits, hplus, hne, hdigits, hfits⟩ | ⟨digits, hdigits, htie⟩ := hmisread h
    · exact hnoplus s' digits hplus hne hdigits hfits
    · refine hno digits (fun hnil => ?_) hdigits
      subst hnil
      cases hdigits
      exact absurd (htie.lt hpos) (show ¬ 2 ^ 53 < 0 by decide)

end Prefixed

/-! ### Other literals -/

/-- A character with this lower case is the same one, or in upper case. -/
theorem eq_of_toLower {c l : Char} (h : c.toLower = l) : c = l ∨ c = Char.ofNat (l.toNat - 32) := by
  delta Char.toLower at h
  split at h
  · next hupper =>
      have hbound : c.toNat ≤ 90 := hupper.2
      have hnat : l.toNat = c.toNat + 32 := by
        rw [← h]
        change (c.val + 32).toNat = _
        rw [UInt32.toNat_add]
        exact Nat.mod_eq_of_lt (show c.toNat + 32 < 2 ^ 32 by omega)
      right
      rw [hnat, Nat.add_sub_cancel, Char.ofNat_toNat]
  · exact .inl h

/-- No word of the library's grammar has the characters of a decimal literal. -/
theorem not_unsignedDecimal_of_word {sign word s : List Char} {negative : Bool} {q : ℚ}
    (hn : 'n' ∈ word.map Char.toLower) (hsign : IsSign sign negative)
    (hdecimal : UnsignedDecimal s q) (hword : ∀ c ∈ word, c ∈ sign ++ s) : False := by
  obtain ⟨c, hc, hlower⟩ := List.mem_map.mp hn
  have hdec := not_decimal hsign hdecimal (hword c hc)
  rcases eq_of_toLower hlower with rfl | rfl
  · exact absurd hdec (by decide)
  · exact absurd hdec (by decide)

/-- Trimmed characters that reach the library parser. -/
structure Plain (t : List Char) : Prop where
  ne_nil : t ≠ []
  ne_infinity (sign : List Char) (negative : Bool) (h : IsSign sign negative) :
    t ≠ sign ++ "Infinity".toList
  no_prefix (c : Char) (s : List Char) (h : t = '0' :: c :: s) : prefixBase c = none
  head (c : Char) (s : List Char) (h : t = c :: s) : c ≠ 'i' ∧ c ≠ 'I'

variable {parse : List Char → Option F64}

/-- A text without a prefix is a literal if and only if it is a signed decimal one. -/
theorem Plain.trimmedLiteral_iff (h : Plain t) :
    TrimmedLiteral t v ↔ ∃ sign negative s q, t = sign ++ s ∧ IsSign sign negative ∧
      UnsignedDecimal s q ∧ v = signedDouble negative q := by
  constructor
  · intro hliteral
    cases hliteral with
    | empty => exact absurd rfl h.ne_nil
    | literal hliteral =>
        cases hliteral with
        | decimal hsign hdecimal => exact ⟨_, _, _, _, rfl, hsign, hdecimal, rfl⟩
        | infinity hsign => exact absurd rfl (h.ne_infinity _ _ hsign)
        | nonDecimal hbase _ _ =>
            rw [h.no_prefix _ _ rfl] at hbase
            cases hbase
  · rintro ⟨sign, negative, s, q, rfl, hsign, hdecimal, rfl⟩
    exact .literal (.decimal hsign hdecimal)

/-- A text without a prefix is misread only as a signed variant of infinity in another case. -/
theorem Plain.misread_iff (h : Plain t) :
    Misread t ↔ ∃ sign word, t = sign :: word ∧ (sign = '+' ∨ sign = '-') ∧
      (word.map Char.toLower = "inf".toList ∨ word.map Char.toLower = "infinity".toList) := by
  constructor
  · intro hmisread
    cases hmisread with
    | sign hbase _ _ _ =>
        rw [h.no_prefix _ _ rfl] at hbase
        cases hbase
    | infinity hsign hword _ => exact ⟨_, _, rfl, hsign, hword⟩
    | tie hbase _ _ =>
        rw [h.no_prefix _ _ rfl] at hbase
        cases hbase
  · rintro ⟨sign, word, rfl, hsign, hword⟩
    refine .infinity hsign hword ?_
    rintro rfl
    rcases hsign with rfl | rfl
    · exact h.ne_infinity _ _ .plus rfl
    · exact h.ne_infinity _ _ .minus rfl

/-- Every spelling of infinity has an `n` in it, which no decimal literal has. -/
theorem mem_n_of_word {word : List Char}
    (h : word.map Char.toLower = "inf".toList ∨ word.map Char.toLower = "infinity".toList) :
    'n' ∈ word.map Char.toLower := by
  rcases h with h | h <;> rw [h] <;> decide

/-- **Other literals** are read correctly, apart from further variants of a signed `Infinity`. -/
theorem meets_plain_iff (hparse : ReadsFloats parse) (h : Plain t) :
    Meets t ((parse t).getD nan) ↔ ¬ Misread t := by
  have hread := hparse t
  rw [h.misread_iff]
  cases hvalue : parse t with
  | none =>
      rw [hvalue] at hread
      have hnone (v : F64) : ¬ TrimmedLiteral t v := by
        rw [h.trimmedLiteral_iff]
        rintro ⟨sign, negative, s, q, rfl, hsign, hdecimal, -⟩
        exact hread _ (.number hsign hdecimal)
      rw [meets_iff_isNaN hnone]
      refine iff_of_true (by decide) ?_
      rintro ⟨sign, word, rfl, rfl | rfl, hword⟩
      · exact hread _ (.infinity .plus hword)
      · exact hread _ (.infinity .minus hword)
  | some v =>
      rw [hvalue] at hread
      rw [Option.getD_some]
      cases hread with
      | number hsign hdecimal =>
          have hliteral := h.trimmedLiteral_iff.mpr ⟨_, _, _, _, rfl, hsign, hdecimal, rfl⟩
          rw [meets_iff_eq hliteral]
          refine iff_of_true rfl ?_
          rintro ⟨sign', word, heq, -, hword⟩
          exact not_unsignedDecimal_of_word (mem_n_of_word hword) hsign hdecimal
            fun c hc => heq ▸ List.mem_cons_of_mem _ hc
      | @infinity sign negative word hsign hword =>
          have hnone (v : F64) : ¬ TrimmedLiteral (sign ++ word) v := by
            rw [h.trimmedLiteral_iff]
            rintro ⟨sign', negative', s, q, heq, hsign', hdecimal, -⟩
            exact not_unsignedDecimal_of_word (mem_n_of_word hword) hsign' hdecimal
              fun c hc => heq ▸ List.mem_append_right _ hc
          rw [meets_iff_isNaN hnone]
          refine iff_of_false (by cases negative <;> decide) (not_not.mpr ?_)
          cases hsign with
          | none =>
              exfalso
              have hfirst : ∃ c s, word = c :: s ∧ c.toLower = 'i' := by
                cases word with
                | nil => rcases hword with hword | hword <;> cases hword
                | cons c s =>
                    refine ⟨c, s, rfl, ?_⟩
                    rcases hword with hword | hword <;> exact (List.cons.inj hword).1
              obtain ⟨c, s, rfl, hc⟩ := hfirst
              obtain ⟨hi, hI⟩ := h.head c s rfl
              exact (eq_of_toLower hc).elim hi hI
          | plus => exact ⟨'+', word, rfl, .inl rfl, hword⟩
          | minus => exact ⟨'-', word, rfl, .inr rfl, hword⟩
      | @nan sign negative word v hsign hword hnan =>
          have hnone (v : F64) : ¬ TrimmedLiteral (sign ++ word) v := by
            rw [h.trimmedLiteral_iff]
            rintro ⟨sign', negative', s, q, heq, hsign', hdecimal, -⟩
            exact not_unsignedDecimal_of_word (hword ▸ by decide) hsign' hdecimal
              fun c hc => heq ▸ List.mem_append_right _ hc
          rw [meets_iff_isNaN hnone]
          refine iff_of_true hnan ?_
          rintro ⟨sign', word', heq, hsign', hword'⟩
          have hlower := congrArg (List.map Char.toLower) heq
          rw [List.map_append, hword, List.map_cons] at hlower
          cases hsign <;> rcases hsign' with rfl | rfl <;> rcases hword' with hword' | hword' <;>
            rw [hword'] at hlower <;> exact absurd hlower (by decide)

/-- Nothing that begins with an `i` is a literal, apart from `Infinity`. -/
theorem meets_nan_of_head {c : Char} {s : List Char} (hc : c = 'i' ∨ c = 'I')
    (hne : c :: s ≠ "Infinity".toList) : Meets (c :: s) nan ↔ ¬ Misread (c :: s) := by
  have hnone (v : F64) : ¬ TrimmedLiteral (c :: s) v := by
    intro h
    cases h with
    | literal h =>
        generalize htext : c :: s = text at h
        cases h with
        | decimal hsign hdecimal =>
            have := not_decimal (c := c) hsign hdecimal (by rw [← htext]; exact List.mem_cons_self)
            rcases hc with rfl | rfl <;> exact absurd this (by decide)
        | infinity hsign =>
            cases hsign
            · exact hne htext
            · cases htext
              rcases hc with h | h <;> cases h
            · cases htext
              rcases hc with h | h <;> cases h
        | nonDecimal _ _ _ =>
            cases htext
            rcases hc with h | h <;> cases h
  rw [meets_iff_isNaN hnone]
  refine iff_of_true (by decide) fun h => ?_
  cases h with
  | sign _ _ _ _ => rcases hc with h | h <;> cases h
  | infinity hsign _ _ => rcases hc with rfl | rfl <;> rcases hsign with h | h <;> cases h
  | tie _ _ _ => rcases hc with h | h <;> cases h

/-- `Infinity` with a sign is read as the standard asks, and is not among the misread texts. -/
theorem meets_infinity_iff {sign : List Char} {negative : Bool} (hsign : IsSign sign negative) :
    Meets (sign ++ "Infinity".toList) (infinity negative) ↔
      ¬ Misread (sign ++ "Infinity".toList) := by
  rw [meets_iff_eq (.literal (.infinity hsign))]
  refine iff_of_true rfl fun h => ?_
  generalize htext : sign ++ "Infinity".toList = text at h
  cases h with
  | sign _ _ _ _ => cases hsign <;> cases htext
  | infinity hfirst _ hne =>
      cases hsign
      · cases htext
        rcases hfirst with h | h <;> cases h
      · exact hne (List.cons.inj htext).2.symm
      · exact hne (List.cons.inj htext).2.symm
  | tie _ _ _ => cases hsign <;> cases htext

/-- **Trimmed characters** are read as the grammar says, unless they are misread. -/
theorem meets_numberOfTrimmed_iff (hparse : ReadsFloats parse) (t : List Char) :
    Meets t (numberOfTrimmed parse t) ↔ ¬ Misread t := by
  by_cases hnil : t = []
  · subst hnil
    rw [numberOfTrimmed, if_pos rfl, meets_iff_eq .empty]
    exact iff_of_true rfl fun h => nomatch h
  by_cases hminus : t = "-Infinity".toList
  · subst hminus
    exact meets_infinity_iff .minus
  by_cases hplus : t = "Infinity".toList ∨ t = "+Infinity".toList
  · rcases hplus with rfl | rfl
    · exact meets_infinity_iff .none
    · exact meets_infinity_iff .plus
  rw [numberOfTrimmed, if_neg hnil, if_neg hminus, if_neg hplus]
  rw [not_or] at hplus
  obtain ⟨c, s, rfl⟩ := List.exists_cons_of_ne_nil hnil
  dsimp only
  cases hbase : if (c :: s).head? = some '0' then (c :: s)[1]?.bind prefixBase else none with
  | some base =>
      split at hbase
      · next hzero =>
          cases hzero
          cases s with
          | nil => cases hbase
          | cons p s => exact meets_prefixed_iff hbase
      · cases hbase
  | none =>
      dsimp only
      split
      · next hi =>
          refine meets_nan_of_head ?_ hplus.1
          simpa using hi
      · next hi =>
          refine meets_plain_iff hparse ⟨hnil, ?_, ?_, ?_⟩
          · intro sign negative hsign
            cases hsign
            · exact hplus.1
            · exact hplus.2
            · exact hminus
          · intro p s' heq
            cases heq
            exact hbase
          · intro c' s' heq
            cases heq
            exact ⟨fun h => hi (.inl (congrArg some h)), fun h => hi (.inr (congrArg some h))⟩

/-! ### Strings -/

/-- The code trims what the standard calls white space or a line terminator. -/
theorem isTrimmableWhitespace_eq (c : Char) :
    isTrimmableWhitespace c = (isWhiteSpace c || isLineTerminatorChar c) := by
  rw [Bool.eq_iff_iff]
  simp only [isTrimmableWhitespace, isWhiteSpace, isLineTerminatorChar, Bool.or_eq_true,
    Bool.and_eq_true, decide_eq_true_eq, List.mem_cons, List.not_mem_nil, or_false]
  -- the same characters, in another order
  refine Iff.of_eq ?_
  ac_rfl

/-- A string without unpaired surrogates decodes to the characters of its text. -/
theorem mapM_toOption_eq_some_iff {decoded : List (Except UInt16 Char)} {text : List Char} :
    decoded.mapM Except.toOption = some text ↔
      decoded.map CodePoint.ofDecoded = text.map .unicode := by
  induction decoded generalizing text with
  | nil => cases text <;> simp
  | cons d decoded ih =>
      cases d with
      | error unit =>
          cases text <;> simp [Except.toOption, CodePoint.ofDecoded]
      | ok c =>
          have hcons : (Except.ok c :: decoded : List (Except UInt16 Char)).mapM Except.toOption =
              (decoded.mapM Except.toOption).map (c :: ·) := by
            rw [List.mapM_cons, Option.map_eq_bind]
            rfl
          rw [hcons, Option.map_eq_some_iff]
          simp only [ih]
          constructor
          · rintro ⟨text, h, rfl⟩
            rw [List.map_cons, List.map_cons, h]
            rfl
          · intro h
            cases text with
            | nil => cases h
            | cons c' text =>
                rw [List.map_cons, List.map_cons, List.cons.injEq] at h
                obtain ⟨hc, h⟩ := h
                exact ⟨text, h, by rw [CodePoint.unicode.inj hc]⟩

/-- A string converts to a text if and only if it has no unpaired surrogate. -/
theorem toStdString_eq_some_iff {s : JsStr} {text : List Char} :
    s.toStdString = some text ↔ s.IsText text := by
  cases s with
  | latin1 v =>
      have hinj : Function.Injective (List.map CodePoint.unicode) :=
        List.map_injective_iff.mpr fun _ _ h => CodePoint.unicode.inj h
      rw [JsStr.toStdString, JsStr.IsText, JsStr.iter_latin1, decodeUtf16_toUInt16, List.map_map,
        Option.some.injEq, ← hinj.eq_iff, List.map_map]
      rfl
  | utf16 v => exact mapM_toOption_eq_some_iff

/-- **Strings as numbers**: a string is read as the grammar says if and only if its trimmed text is
not misread. -/
theorem toNumber_iff (hparse : ReadsFloats parse) (s : JsStr) :
    StringToNumber s (s.toNumber parse) ↔
      ∀ text, s.IsText text → ¬ Misread (trimmed text) := by
  rw [JsStr.toNumber]
  cases hstring : s.toStdString with
  | none =>
      have hno (text : List Char) : ¬ s.IsText text := by
        rw [← toStdString_eq_some_iff, hstring]
        exact fun h => by cases h
      have hnone (v : F64) : ¬ StringNumericLiteral s v := fun ⟨text, htext, _⟩ => hno text htext
      refine iff_of_true ⟨iff_of_false (show ¬ nan.isNaN = false by decide) ?_, ?_⟩
        fun text htext => absurd htext (hno text)
      · exact fun ⟨v, hv⟩ => hnone v hv
      · exact fun v hv => absurd hv (hnone v)
  | some string =>
      have htext := toStdString_eq_some_iff.mp hstring
      have hunique {text : List Char} (h : s.IsText text) : text = string := by
        rw [← toStdString_eq_some_iff, hstring, Option.some.injEq] at h
        exact h.symm
      have hliteral (v : F64) : StringNumericLiteral s v ↔ TrimmedLiteral (trimmed string) v := by
        constructor
        · rintro ⟨text, h, hv⟩
          rwa [hunique h] at hv
        · exact fun h => ⟨string, htext, h⟩
      have htrimmed : trimMatches isTrimmableWhitespace string = trimmed string := by
        rw [trimmed]
        congr 1
        exact funext isTrimmableWhitespace_eq
      have hmeets := meets_numberOfTrimmed_iff hparse (trimmed string)
      simp only [StringToNumber, hliteral, htrimmed]
      rw [Meets] at hmeets
      rw [hmeets]
      exact ⟨fun h text htext => hunique htext ▸ h, fun h => h string htext⟩

/-! ### Decimal integers -/

/-- Characters of decimal literals are visible. -/
theorem not_space_of_isDecimalCharacter {c : Char} (h : isDecimalCharacter c = true) :
    (isWhiteSpace c || isLineTerminatorChar c) = false := by
  simp only [isDecimalCharacter, Bool.or_eq_true, decide_eq_true_eq, or_assoc] at h
  rcases h with hdigit | rfl | rfl | rfl | rfl | rfl
  · obtain ⟨d, hd⟩ := Option.isSome_iff_exists.mp hdigit
    have hrange := toDigit_eq_some_iff.mp hd
    rw [Bool.or_eq_false_iff]
    constructor
    · simp only [isWhiteSpace, Bool.or_eq_false_iff, Bool.and_eq_false_iff, decide_eq_false_iff_not,
        List.mem_cons, List.not_mem_nil, or_false]
      omega
    · simp only [isLineTerminatorChar, decide_eq_false_iff_not, List.mem_cons, List.not_mem_nil,
        or_false]
      omega
  · decide
  · decide
  · decide
  · decide
  · decide

/-- Nothing is trimmed from decimal literals. -/
theorem trimmed_of_isDecimalCharacter (h : ∀ c ∈ t, isDecimalCharacter c = true) :
    trimmed t = t := by
  have hspace : ∀ c ∈ t, ¬ (isWhiteSpace c || isLineTerminatorChar c) = true := fun c hc =>
    Bool.eq_false_iff.mp (not_space_of_isDecimalCharacter (h c hc))
  have hfront : t.dropWhile (fun c => isWhiteSpace c || isLineTerminatorChar c) = t := by
    cases t with
    | nil => rfl
    | cons c t => exact List.dropWhile_cons_of_neg (hspace c List.mem_cons_self)
  rw [trimmed, trimMatches, hfront, List.rdropWhile_eq_self_iff]
  exact fun hne => hspace _ (List.getLast_mem hne)

/-- Digits are not misread. -/
theorem not_misread_of_isDigits (h : IsDigits 10 t digits) : ¬ Misread t := by
  intro hmisread
  have hprefix : ∀ {c base s}, prefixBase c = some base → t ≠ '0' :: c :: s := by
    rintro c base s hbase rfl
    have hc := h.isDecimalCharacter c (List.mem_cons_of_mem _ List.mem_cons_self)
    rw [(isDecimalCharacter_of_prefixBase hbase).1] at hc
    cases hc
  cases hmisread with
  | sign hbase _ _ _ => exact hprefix hbase rfl
  | infinity hsign _ _ =>
      rcases hsign with rfl | rfl
      · exact h.ne_sign_of_cons.1 rfl
      · exact h.ne_sign_of_cons.2 rfl
  | tie hbase _ _ => exact hprefix hbase rfl

/-- **Decimal integers** are read with their value, rounded. -/
theorem toNumber_of_isText (hparse : ReadsFloats parse) {s : JsStr} {n : ℕ}
    (hs : s.IsText (Nat.toDigits 10 n)) : s.toNumber parse = double n := by
  obtain ⟨digits, hdigits, hvalue⟩ := isDigits_toDigits n
  have htrimmed : trimmed (Nat.toDigits 10 n) = Nat.toDigits 10 n :=
    trimmed_of_isDecimalCharacter hdigits.isDecimalCharacter
  have hread : StringToNumber s (s.toNumber parse) := by
    refine (toNumber_iff hparse s).mpr fun text htext => ?_
    have hsame : text = Nat.toDigits 10 n := by
      rw [← toStdString_eq_some_iff] at hs htext
      rw [hs] at htext
      exact (Option.some.inj htext).symm
    rw [hsame, htrimmed]
    exact not_misread_of_isDigits hdigits
  refine hread.2 _ ⟨_, hs, ?_⟩
  rw [htrimmed]
  have hdecimal : UnsignedDecimal (Nat.toDigits 10 n) n := by
    have hliteral := UnsignedDecimal.mk (.integer Nat.toDigits_ne_nil hdigits) .none
    rw [List.append_nil, hvalue, zpow_zero, mul_one] at hliteral
    exact hliteral
  exact .literal (.decimal .none hdecimal)

/-! ### Misread strings -/

open Classical in
/-- A parser that reads its documented grammar. -/
noncomputable def referenceParse (s : List Char) : Option F64 :=
  if h : ∃ v, FloatLiteral s v then some h.choose else none

/-- The reference parser reads the documented grammar and rounds correctly. -/
theorem readsFloats_referenceParse : ReadsFloats referenceParse := by
  intro s
  by_cases h : ∃ v, FloatLiteral s v
  · rw [referenceParse, dif_pos h]
    exact h.choose_spec
  · rw [referenceParse, dif_neg h]
    exact fun v hv => h ⟨v, hv⟩

/-- The string `0x+1`. -/
def signAfterPrefix : JsStr := .latin1 [0x30, 0x78, 0x2B, 0x31]

/-- A sign is read after the prefix of a base. -/
theorem not_stringToNumber_sign : ReadsFloats referenceParse ∧
    ¬ StringToNumber signAfterPrefix (signAfterPrefix.toNumber referenceParse) := by
  refine ⟨readsFloats_referenceParse, fun h => ?_⟩
  have hresult : signAfterPrefix.toNumber referenceParse = double 1 := by
    have hread : fromStrRadix 32 16 ['+', '1'] = some 1 := by decide
    have htrimmed : trimMatches isTrimmableWhitespace ['0', 'x', '+', '1'] = ['0', 'x', '+', '1'] := by
      decide
    have hstring : signAfterPrefix.toStdString = some ['0', 'x', '+', '1'] := by decide
    rw [JsStr.toNumber, hstring]
    dsimp only
    rw [htrimmed, numberOfTrimmed, if_neg (by decide), if_neg (by decide), if_neg (by decide)]
    change parsePrefixed 16 ['+', '1'] = double 1
    rw [parsePrefixed, if_neg (by decide), hread]
  obtain ⟨v, text, htext, hv⟩ := h.1.mp (by rw [hresult]; exact isNaN_double 1)
  have hstring : signAfterPrefix.toStdString = some text := toStdString_eq_some_iff.mpr htext
  obtain rfl : ['0', 'x', '+', '1'] = text := Option.some.inj hstring
  cases hv with
  | literal h =>
      obtain ⟨digits, -, hdigits, -⟩ := StrNumericLiteral.of_prefix (c := 'x') rfl h
      exact not_isDigits_plus hdigits

/-- The string `0x200000000000011`. -/
def brokenTie : JsStr :=
  .latin1 [0x30, 0x78, 0x32, 0x30, 0x30, 0x30, 0x30, 0x30, 0x30, 0x30, 0x30, 0x30, 0x30, 0x30, 0x30,
    0x31, 0x31]

/-- The fourteen first digits are `2 ^ 53 + 1`, which is rounded down, and then comes another `1`. -/
theorem toNumber_iff_brokenTie :
    ¬ StringToNumber brokenTie (brokenTie.toNumber referenceParse) := by
  intro h
  refine (toNumber_iff readsFloats_referenceParse brokenTie).mp h "0x200000000000011".toList rfl
    (@Misread.tie 'x' 16 _ [2, 0, 0, 0, 0, 0, 0, 0, 0, 0, 0, 0, 0, 1, 1] rfl ?_ ?_)
  · iterate 15 refine .cons rfl ?_
    exact .nil
  · exact ⟨[2, 0, 0, 0, 0, 0, 0, 0, 0, 0, 0, 0, 0, 1], [1], 2 ^ 51, 0, rfl, le_rfl,
      by norm_num, by decide, by decide +kernel, by decide, by decide +kernel⟩

end BoaLigero
