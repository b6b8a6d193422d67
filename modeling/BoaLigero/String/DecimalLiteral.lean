import BoaLigero.String.FromStrRadix
import BoaLigero.Util.NaturalDouble

/-!
# Decimal Literals

The decimal numbers that are written in strings and in source text (`StrUnsignedDecimalLiteral`),
with their mathematical values, and what the library parser of doubles is documented to read.

## Main results

* `UnsignedDecimal.unique` — a literal has one value.
* `FloatLiteral`, `ReadsFloats` — the documented grammar of `fast_float2::parse`.
-/

namespace BoaLigero

open Digits F64

/-- An optional sign, and whether it is negative. -/
inductive IsSign : List Char → Bool → Prop
  | none : IsSign [] false
  | plus : IsSign ['+'] false
  | minus : IsSign ['-'] true

/-- Digits with an optional point between or next to them. -/
inductive IsMantissa : List Char → ℚ → Prop
  | integer {s digits} (hne : s ≠ []) (hdigits : IsDigits 10 s digits) :
      IsMantissa s (ofDigits 10 digits)
  | point {s digits t fraction} (hdigits : IsDigits 10 s digits) (hfraction : IsDigits 10 t fraction)
      (hne : s ≠ [] ∨ t ≠ []) :
      IsMantissa (s ++ '.' :: t)
        (ofDigits 10 (digits ++ fraction) / 10 ^ fraction.length)

/-- An optional exponent. -/
inductive IsExponent : List Char → ℤ → Prop
  | none : IsExponent [] 0
  | part {indicator sign negative s digits} (hindicator : indicator = 'e' ∨ indicator = 'E')
      (hsign : IsSign sign negative) (hne : s ≠ []) (hdigits : IsDigits 10 s digits) :
      IsExponent (indicator :: (sign ++ s))
        (if negative then -ofDigits 10 digits else ofDigits 10 digits)

/-- A decimal literal without a sign, and its value. -/
inductive UnsignedDecimal : List Char → ℚ → Prop
  | mk {s mantissa t exponent} (hmantissa : IsMantissa s mantissa)
      (hexponent : IsExponent t exponent) : UnsignedDecimal (s ++ t) (mantissa * 10 ^ exponent)

/-- The value of a literal with a sign, correctly rounded. -/
def signedDouble (negative : Bool) (q : ℚ) : F64 := ofValue (if negative then -q else q) negative

/-- The documented grammar of `fast_float2::parse`: decimal literals, infinities, and what is not a
number, in lower case or not. -/
inductive FloatLiteral : List Char → F64 → Prop
  | number {sign negative s q} (hsign : IsSign sign negative) (hdecimal : UnsignedDecimal s q) :
      FloatLiteral (sign ++ s) (signedDouble negative q)
  | infinity {sign negative s} (hsign : IsSign sign negative)
      (hword : s.map Char.toLower = "inf".toList ∨ s.map Char.toLower = "infinity".toList) :
      FloatLiteral (sign ++ s) (F64.infinity negative)
  | nan {sign negative s v} (hsign : IsSign sign negative)
      (hword : s.map Char.toLower = "nan".toList) (hnan : v.isNaN = true) : FloatLiteral (sign ++ s) v

/-- The parser accepts its documented grammar, and rounds correctly. -/
def ReadsFloats (parse : List Char → Option F64) : Prop :=
  ∀ s, match parse s with
    | some v => FloatLiteral s v
    | none => ∀ v, ¬ FloatLiteral s v

/-! ### Characters -/

/-- The characters of decimal literals. -/
def isDecimalCharacter (c : Char) : Bool :=
  (toDigit 10 c).isSome || c = '.' || c = 'e' || c = 'E' || c = '+' || c = '-'

variable {s t rest rest' : List Char} {digits digits' : List ℕ} {q q' : ℚ}

/-- Digits are characters of decimal literals. -/
theorem IsDigits.isDecimalCharacter (h : IsDigits 10 s digits) :
    ∀ c ∈ s, isDecimalCharacter c = true := by
  induction h with
  | nil => exact fun c hc => absurd hc List.not_mem_nil
  | cons hd _ ih =>
      intro c hc
      cases List.mem_cons.mp hc with
      | inl heq => simp [BoaLigero.isDecimalCharacter, heq, hd]
      | inr hmem => exact ih c hmem

/-- A sign is a character of decimal literals. -/
theorem IsSign.isDecimalCharacter {negative : Bool} (h : IsSign s negative) :
    ∀ c ∈ s, isDecimalCharacter c = true := by
  cases h <;> simp [BoaLigero.isDecimalCharacter]

/-- A mantissa has characters of decimal literals only. -/
theorem IsMantissa.isDecimalCharacter (h : IsMantissa s q) :
    ∀ c ∈ s, isDecimalCharacter c = true := by
  intro c hc
  cases h with
  | integer _ hdigits => exact hdigits.isDecimalCharacter c hc
  | point hdigits hfraction _ =>
      rcases List.mem_append.mp hc with hc | hc
      · exact hdigits.isDecimalCharacter c hc
      · rcases List.mem_cons.mp hc with rfl | hc
        · simp [BoaLigero.isDecimalCharacter]
        · exact hfraction.isDecimalCharacter c hc

/-- An exponent has characters of decimal literals only. -/
theorem IsExponent.isDecimalCharacter {e : ℤ} (h : IsExponent s e) :
    ∀ c ∈ s, isDecimalCharacter c = true := by
  intro c hc
  cases h with
  | none => exact absurd hc List.not_mem_nil
  | part hindicator hsign _ hdigits =>
      rcases List.mem_cons.mp hc with rfl | hc
      · rcases hindicator with rfl | rfl <;> simp [BoaLigero.isDecimalCharacter]
      · rcases List.mem_append.mp hc with hc | hc
        · exact hsign.isDecimalCharacter c hc
        · exact hdigits.isDecimalCharacter c hc

/-- A literal without a sign has characters of decimal literals only. -/
theorem UnsignedDecimal.isDecimalCharacter (h : UnsignedDecimal s q) :
    ∀ c ∈ s, isDecimalCharacter c = true := by
  intro c hc
  cases h with
  | mk hmantissa hexponent =>
      rcases List.mem_append.mp hc with hc | hc
      · exact hmantissa.isDecimalCharacter c hc
      · exact hexponent.isDecimalCharacter c hc

/-- A mantissa begins with a digit or with the point. -/
theorem IsMantissa.first (h : IsMantissa s q) :
    ∃ c r, s = c :: r ∧ ((toDigit 10 c).isSome ∨ c = '.') := by
  have hdigit {s : List Char} {digits : List ℕ} (hdigits : IsDigits 10 s digits) (hne : s ≠ []) :
      ∃ c r, s = c :: r ∧ (toDigit 10 c).isSome := by
    cases hdigits with
    | nil => exact absurd rfl hne
    | cons hd _ => exact ⟨_, _, rfl, by rw [hd]; rfl⟩
  cases h with
  | integer hne hdigits =>
      obtain ⟨c, r, heq, hc⟩ := hdigit hdigits hne
      exact ⟨c, r, heq, .inl hc⟩
  | @point s _ t _ hdigits _ _ =>
      by_cases hempty : s = []
      · exact ⟨'.', t, by rw [hempty]; rfl, .inr rfl⟩
      · obtain ⟨c, r, heq, hc⟩ := hdigit hdigits hempty
        exact ⟨c, r ++ '.' :: t, by rw [heq]; rfl, .inl hc⟩

/-- A literal begins with a digit or a point. -/
theorem UnsignedDecimal.first (h : UnsignedDecimal s q) :
    ∃ c r, s = c :: r ∧ ((toDigit 10 c).isSome ∨ c = '.') := by
  cases h with
  | @mk _ _ t _ hmantissa _ =>
      obtain ⟨c, r, rfl, hc⟩ := hmantissa.first
      exact ⟨c, r ++ t, rfl, hc⟩

/-- A literal without a sign does not begin with one. -/
theorem UnsignedDecimal.ne_sign {c : Char} {r : List Char} (h : UnsignedDecimal (c :: r) q) :
    c ≠ '+' ∧ c ≠ '-' := by
  obtain ⟨c', r', heq, hc⟩ := h.first
  cases heq
  constructor
  · rintro rfl
    exact absurd hc (by decide)
  · rintro rfl
    exact absurd hc (by decide)

/-! ### Uniqueness -/

/-- What follows digits does not begin with one. -/
def NotDigitFirst (s : List Char) : Prop := ∀ c t, s = c :: t → toDigit 10 c = none

/-- What is empty begins with no digit. -/
theorem notDigitFirst_nil : NotDigitFirst [] := fun _ _ h => absurd h (List.cons_ne_nil _ _).symm

/-- What begins with another character begins with no digit. -/
theorem notDigitFirst_cons {c : Char} (h : toDigit 10 c = none) : NotDigitFirst (c :: s) := by
  rintro _ _ heq
  cases heq
  exact h

/-- **Digits end** where the first character comes that is none. -/
theorem IsDigits.append_inj (h : IsDigits 10 s digits) (h' : IsDigits 10 t digits')
    (hrest : NotDigitFirst rest) (hrest' : NotDigitFirst rest') (heq : s ++ rest = t ++ rest') :
    s = t ∧ digits = digits' ∧ rest = rest' := by
  induction h generalizing t digits' with
  | nil =>
      cases h' with
      | nil => exact ⟨rfl, rfl, heq⟩
      | cons hd _ =>
          have := hrest _ _ heq
          rw [hd] at this
          cases this
  | cons hd _ ih =>
      cases h' with
      | nil =>
          have := hrest' _ _ heq.symm
          rw [hd] at this
          cases this
      | cons hd' htail =>
          rw [List.cons_append, List.cons_append, List.cons.injEq] at heq
          obtain ⟨rfl, heq⟩ := heq
          obtain ⟨rfl, rfl, rfl⟩ := ih htail heq
          rw [hd, Option.some.injEq] at hd'
          exact ⟨rfl, by rw [hd'], rfl⟩

/-- An exponent begins with its indicator, if it is not left out. -/
theorem IsExponent.first {c : Char} {e : ℤ} (h : IsExponent (c :: s) e) : c = 'e' ∨ c = 'E' := by
  generalize htext : c :: s = text at h
  cases h with
  | none => cases htext
  | part hindicator _ _ _ =>
      cases htext
      exact hindicator

/-- An exponent does not begin with a digit, so that it is clear where the mantissa ends. -/
theorem IsExponent.notDigitFirst {e : ℤ} (h : IsExponent s e) : NotDigitFirst s := by
  cases h with
  | none => exact notDigitFirst_nil
  | part hindicator _ _ _ =>
      rcases hindicator with rfl | rfl
      · exact notDigitFirst_cons (by decide)
      · exact notDigitFirst_cons (by decide)

/-- A sign is told apart from what follows it by its first character. -/
theorem IsSign.append_inj {sign sign' : List Char} {negative negative' : Bool}
    (h : IsSign sign negative) (h' : IsSign sign' negative')
    (hs : ∀ c r, s = c :: r → c ≠ '+' ∧ c ≠ '-') (ht : ∀ c r, t = c :: r → c ≠ '+' ∧ c ≠ '-')
    (heq : sign ++ s = sign' ++ t) : negative = negative' ∧ s = t := by
  cases h <;> cases h' <;>
    simp only [List.nil_append, List.cons_append, List.cons.injEq, true_and] at heq
  case none.none => exact ⟨rfl, heq⟩
  case none.plus => exact absurd rfl (hs _ _ heq).1
  case none.minus => exact absurd rfl (hs _ _ heq).2
  case plus.none => exact absurd rfl (ht _ _ heq.symm).1
  case plus.plus => exact ⟨rfl, heq⟩
  case plus.minus => exact absurd heq.1 (by decide)
  case minus.none => exact absurd rfl (ht _ _ heq.symm).2
  case minus.plus => exact absurd heq.1 (by decide)
  case minus.minus => exact ⟨rfl, heq⟩

/-- An exponent has one value. -/
theorem IsExponent.unique {e e' : ℤ} (h : IsExponent s e) (h' : IsExponent s e') : e = e' := by
  cases h with
  | none =>
      cases h'
      rfl
  | part _ hsign _ hdigits =>
      generalize htext : _ :: (_ ++ _) = text at h'
      cases h' with
      | none => cases htext
      | part _ hsign' _ hdigits' =>
          rw [List.cons.injEq] at htext
          obtain ⟨rfl, rfl⟩ := hsign.append_inj hsign' (fun c r hr => (hr ▸ hdigits).ne_sign_of_cons)
            (fun c r hr => (hr ▸ hdigits').ne_sign_of_cons) htext.2
          rw [hdigits.unique hdigits']

/-- **A literal has one value.** -/
theorem UnsignedDecimal.unique (h : UnsignedDecimal s q) (h' : UnsignedDecimal s q') : q = q' := by
  have hpoint (r : List Char) : NotDigitFirst ('.' :: r) := notDigitFirst_cons (by decide)
  cases h with
  | mk hmantissa hexponent =>
      generalize htext : (_ : List Char) ++ _ = text at h'
      cases h' with
      | mk hmantissa' hexponent' =>
          have hend := hexponent.notDigitFirst
          have hend' := hexponent'.notDigitFirst
          cases hmantissa with
          | integer _ hdigits =>
              cases hmantissa' with
              | integer _ hdigits' =>
                  obtain ⟨rfl, rfl, rfl⟩ := hdigits.append_inj hdigits' hend hend' htext
                  rw [hexponent.unique hexponent']
              | point hdigits' _ _ =>
                  rw [List.append_assoc] at htext
                  obtain ⟨rfl, rfl, rfl⟩ := hdigits.append_inj hdigits' hend (hpoint _) htext
                  exact absurd hexponent.first (by decide)
          | point hdigits hfraction _ =>
              rw [List.append_assoc] at htext
              cases hmantissa' with
              | integer _ hdigits' =>
                  obtain ⟨rfl, rfl, rfl⟩ := hdigits.append_inj hdigits' (hpoint _) hend' htext
                  exact absurd hexponent'.first (by decide)
              | point hdigits' hfraction' _ =>
                  rw [List.append_assoc] at htext
                  obtain ⟨rfl, rfl, htext⟩ :=
                    hdigits.append_inj hdigits' (hpoint _) (hpoint _) htext
                  obtain ⟨rfl, rfl, rfl⟩ := hfraction.append_inj hfraction' hend hend'
                    (List.cons.inj htext).2
                  rw [hexponent.unique hexponent']

end BoaLigero
