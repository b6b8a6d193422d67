import Mathlib.Data.List.Basic
import Mathlib.Tactic.SplitIfs

/-!
# Code Points

The code points of a string (`string/code_point.rs`), and the encodings of Rust strings that
strings are compared with and built from: UTF-8, UTF-16 and the decoding of UTF-16 with its
unpaired surrogates.
-/

namespace BoaLigero

/-- A code point (`CodePoint`): a Unicode scalar value, or an unpaired surrogate. -/
inductive CodePoint where
  | unicode (c : Char)
  | unpairedSurrogate (unit : UInt16)
  deriving DecidableEq

/-- A surrogate code unit (`is_utf16_surrogate`). -/
def isSurrogate (unit : UInt16) : Bool := 0xD800 ≤ unit && unit ≤ 0xDFFF

/-- A trailing surrogate. -/
def isTrailing (unit : UInt16) : Bool := 0xDC00 ≤ unit && unit ≤ 0xDFFF

/-- The code units of a character (`char::encode_utf16`). -/
def encodeUtf16Char (c : Char) : List UInt16 :=
  if c.toNat < 0x10000 then [.ofNat c.toNat]
  else [.ofNat (0xD800 + (c.toNat - 0x10000) / 0x400), .ofNat (0xDC00 + (c.toNat - 0x10000) % 0x400)]

/-- The UTF-16 encoding of a Rust string (`str::encode_utf16`). -/
def encodeUtf16 (s : String) : List UInt16 := s.toList.flatMap encodeUtf16Char

/-- The UTF-8 encoding of a Rust string (`str::as_bytes`). -/
def asBytes (s : String) : List UInt8 := s.toList.flatMap String.utf8EncodeChar

/-- The character that a pair of surrogates encodes. -/
def ofSurrogates (leading trailing : UInt16) : Char :=
  Char.ofNat ((leading.toNat - 0xD800) * 0x400 + (trailing.toNat - 0xDC00) + 0x10000)

/-- The decoding of UTF-16 (`char::decode_utf16`): characters, and unpaired surrogates as
errors. -/
def decodeUtf16 : List UInt16 → List (Except UInt16 Char)
  | [] => []
  | unit :: units =>
      if !isSurrogate unit then .ok (Char.ofNat unit.toNat) :: decodeUtf16 units
      else if 0xDC00 ≤ unit then .error unit :: decodeUtf16 units
      else
        match units with
        | [] => [.error unit]
        | next :: rest =>
            if isTrailing next then .ok (ofSurrogates unit next) :: decodeUtf16 rest
            else .error unit :: decodeUtf16 (next :: rest)

/-- What was decoded, as a code point. -/
def CodePoint.ofDecoded : Except UInt16 Char → CodePoint
  | .ok c => unicode c
  | .error unit => unpairedSurrogate unit

/-! ### Encodings -/

/-- A code unit of one byte is not a surrogate. -/
theorem isSurrogate_toUInt16 (b : UInt8) : isSurrogate b.toUInt16 = false := by
  have hlt := b.toNat_lt
  simp only [isSurrogate, Bool.and_eq_false_iff, decide_eq_false_iff_not, UInt16.le_iff_toNat_le,
    UInt8.toNat_toUInt16, UInt16.reduceToNat]
  omega

theorem decodeUtf16_cons {unit : UInt16} (h : isSurrogate unit = false) (units : List UInt16) :
    decodeUtf16 (unit :: units) = .ok (Char.ofNat unit.toNat) :: decodeUtf16 units := by
  cases units <;> simp [decodeUtf16, h]

/-- Bytes are decoded one by one. -/
theorem decodeUtf16_toUInt16 (v : List UInt8) :
    decodeUtf16 (v.map UInt8.toUInt16) = v.map fun b => .ok (Char.ofNat b.toNat) := by
  induction v with
  | nil => rfl
  | cons b v ih =>
      rw [List.map_cons, decodeUtf16_cons (isSurrogate_toUInt16 b), ih, UInt8.toNat_toUInt16,
        List.map_cons]

/-- A character of less than 128 is one unit in both encodings. -/
theorem encode_of_lt {c : Char} (h : c.toNat < 128) :
    String.utf8EncodeChar c = [.ofNat c.toNat] ∧ encodeUtf16Char c = [.ofNat c.toNat] := by
  have hval : c.val.toNat ≤ 0x7f := Nat.le_of_lt_succ h
  constructor
  · simp only [String.utf8EncodeChar, hval, if_true]
    rfl
  · rw [encodeUtf16Char, if_pos (by omega)]

/-- Any other character has more bytes than code units. -/
theorem length_encodeUtf16Char_lt {c : Char} (h : ¬ c.toNat < 128) :
    (encodeUtf16Char c).length < (String.utf8EncodeChar c).length := by
  have hval : ¬ c.val.toNat ≤ 0x7f := fun hle => h (Nat.lt_succ_of_le hle)
  have hnat : c.toNat = c.val.toNat := rfl
  simp only [encodeUtf16Char, String.utf8EncodeChar, hval, if_false, hnat]
  split_ifs <;> simp
  omega

/-- No character has fewer bytes than code units. -/
theorem length_encodeUtf16Char_le (c : Char) :
    (encodeUtf16Char c).length ≤ (String.utf8EncodeChar c).length := by
  by_cases h : c.toNat < 128
  · obtain ⟨hbytes, hunits⟩ := encode_of_lt h
    rw [hbytes, hunits]
    exact Nat.le_refl _
  · exact Nat.le_of_lt (length_encodeUtf16Char_lt h)

/-- The characters of a Rust string are all less than 128 (`str::is_ascii`). -/
def isAscii (s : String) : Bool := s.toList.all fun c => c.toNat < 128

/-- The code units of an ASCII string are its bytes. -/
theorem encodeUtf16_eq_asBytes {s : String} (h : isAscii s) :
    encodeUtf16 s = (asBytes s).map UInt8.toUInt16 := by
  rw [isAscii] at h
  rw [encodeUtf16, asBytes]
  revert h
  induction s.toList with
  | nil => exact fun _ => rfl
  | cons c cs ih =>
      intro h
      simp only [List.all_cons, Bool.and_eq_true, decide_eq_true_eq] at h
      obtain ⟨hbytes, hunits⟩ := encode_of_lt h.1
      have hunit : (UInt8.ofNat c.toNat).toUInt16 = UInt16.ofNat c.toNat := by
        rw [← UInt16.toNat_inj, UInt8.toNat_toUInt16, UInt8.toNat_ofNat', UInt16.toNat_ofNat']
        have hlt := h.1
        omega
      simp [hbytes, hunits, hunit, ih h.2]

/-- Any other string has more bytes than code units. -/
theorem length_encodeUtf16_lt {s : String} (h : isAscii s = false) :
    (encodeUtf16 s).length < (asBytes s).length := by
  rw [isAscii] at h
  rw [encodeUtf16, asBytes]
  have hle : ∀ cs : List Char, (cs.flatMap encodeUtf16Char).length ≤
      (cs.flatMap String.utf8EncodeChar).length := by
    intro cs
    induction cs with
    | nil => exact Nat.le_refl _
    | cons c cs ih =>
        have hc := length_encodeUtf16Char_le c
        simp only [List.flatMap_cons, List.length_append]
        omega
  revert h
  induction s.toList with
  | nil => exact fun h => nomatch h
  | cons c cs ih =>
      intro h
      have hc := length_encodeUtf16Char_le c
      have hcs := hle cs
      simp only [List.flatMap_cons, List.length_append]
      by_cases hlt : c.toNat < 128
      · have hrest := ih (by simpa [hlt] using h)
        omega
      · have hmore := length_encodeUtf16Char_lt hlt
        omega

/-! ### Decoding -/

theorem toNat_charOfNat {n : ℕ} (h : n.isValidChar) : (Char.ofNat n).toNat = n := by
  rw [Char.ofNat, dif_pos h]
  rfl

theorem isSurrogate_eq_true_iff {unit : UInt16} :
    isSurrogate unit = true ↔ 0xD800 ≤ unit.toNat ∧ unit.toNat ≤ 0xDFFF := by
  simp only [isSurrogate, Bool.and_eq_true, decide_eq_true_eq, UInt16.le_iff_toNat_le,
    UInt16.reduceToNat]

theorem isTrailing_eq_true_iff {unit : UInt16} :
    isTrailing unit = true ↔ 0xDC00 ≤ unit.toNat ∧ unit.toNat ≤ 0xDFFF := by
  simp only [isTrailing, Bool.and_eq_true, decide_eq_true_eq, UInt16.le_iff_toNat_le,
    UInt16.reduceToNat]

/-- A code unit that is no surrogate is a character of its own. -/
theorem toNat_ofNat_of_not_surrogate {unit : UInt16} (h : isSurrogate unit = false) :
    (Char.ofNat unit.toNat).toNat = unit.toNat := by
  refine toNat_charOfNat ?_
  have hlt := unit.toNat_lt
  by_contra hinvalid
  have hsurrogate : isSurrogate unit = true := isSurrogate_eq_true_iff.mpr (by
    rw [Nat.isValidChar] at hinvalid
    omega)
  rw [h] at hsurrogate
  cases hsurrogate

theorem encodeUtf16Char_ofNat {unit : UInt16} (h : isSurrogate unit = false) :
    encodeUtf16Char (Char.ofNat unit.toNat) = [unit] := by
  have hlt := unit.toNat_lt
  rw [encodeUtf16Char, toNat_ofNat_of_not_surrogate h, if_pos (by omega), UInt16.ofNat_toNat]

/-- A pair of surrogates is a character. -/
theorem toNat_ofSurrogates {leading trailing : UInt16} (hleading : isSurrogate leading)
    (hlt : leading.toNat < 0xDC00) (htrailing : isTrailing trailing) :
    (ofSurrogates leading trailing).toNat =
      (leading.toNat - 0xD800) * 0x400 + (trailing.toNat - 0xDC00) + 0x10000 := by
  rw [isSurrogate_eq_true_iff] at hleading
  rw [isTrailing_eq_true_iff] at htrailing
  exact toNat_charOfNat (.inr (by omega))

theorem encodeUtf16Char_ofSurrogates {leading trailing : UInt16} (hleading : isSurrogate leading)
    (hlt : leading.toNat < 0xDC00) (htrailing : isTrailing trailing) :
    encodeUtf16Char (ofSurrogates leading trailing) = [leading, trailing] := by
  have hnat := toNat_ofSurrogates hleading hlt htrailing
  rw [isSurrogate_eq_true_iff] at hleading
  rw [isTrailing_eq_true_iff] at htrailing
  rw [encodeUtf16Char, hnat, if_neg (by omega)]
  simp only [List.cons.injEq, and_true, ← UInt16.toNat_inj, UInt16.toNat_ofNat']
  omega

/-- What the code units are decoded to, one case for each step of `decodeUtf16`. -/
inductive DecodesUtf16 : List UInt16 → List (Except UInt16 Char) → Prop
  | nil : DecodesUtf16 [] []
  | scalar {unit : UInt16} {units : List UInt16} {decoded : List (Except UInt16 Char)} :
      isSurrogate unit = false → DecodesUtf16 units decoded →
        DecodesUtf16 (unit :: units) (.ok (Char.ofNat unit.toNat) :: decoded)
  | pair {leading trailing : UInt16} {units : List UInt16} {decoded : List (Except UInt16 Char)} :
      isSurrogate leading = true → leading.toNat < 0xDC00 → isTrailing trailing = true →
        DecodesUtf16 units decoded →
          DecodesUtf16 (leading :: trailing :: units) (.ok (ofSurrogates leading trailing) :: decoded)
  | unpaired {unit : UInt16} {units : List UInt16} {decoded : List (Except UInt16 Char)} :
      isSurrogate unit = true →
        (unit.toNat < 0xDC00 → ∀ next ∈ units.head?, isTrailing next = false) →
          DecodesUtf16 units decoded → DecodesUtf16 (unit :: units) (.error unit :: decoded)

theorem decodesUtf16 (units : List UInt16) : DecodesUtf16 units (decodeUtf16 units) := by
  induction hn : units.length using Nat.strongRecOn generalizing units with
  | ind n ih =>
      subst hn
      cases units with
      | nil => exact .nil
      | cons unit units =>
          have hrest := ih units.length (Nat.lt_succ_self _) units rfl
          rw [decodeUtf16.eq_def]
          dsimp only
          split
          · next h => exact .scalar (by simpa using h) hrest
          · next h =>
              have hunit : isSurrogate unit = true := by simpa using h
              split
              · next hge =>
                  rw [UInt16.le_iff_toNat_le] at hge
                  exact .unpaired hunit (fun hlt => absurd hlt (Nat.not_lt_of_le hge)) hrest
              · next hge =>
                  rw [UInt16.le_iff_toNat_le] at hge
                  match units with
                  | [] => exact .unpaired hunit (fun _ _ hmem => nomatch hmem) .nil
                  | next :: rest =>
                      dsimp only
                      split
                      · next hnext =>
                          exact .pair hunit (Nat.lt_of_not_le hge) hnext
                            (ih rest.length (by simp only [List.length_cons]; omega) rest rfl)
                      · next hnext =>
                          refine .unpaired hunit (fun _ unit hmem => ?_) hrest
                          cases hmem
                          simpa using hnext

theorem DecodesUtf16.eq {units : List UInt16} {decoded : List (Except UInt16 Char)}
    (h : DecodesUtf16 units decoded) : decodeUtf16 units = decoded := by
  induction h with
  | nil => rfl
  | scalar hunit _ ih => rw [decodeUtf16_cons hunit, ih]
  | @pair leading trailing units _ hleading hlt htrailing _ ih =>
      rw [decodeUtf16.eq_def]
      dsimp only
      rw [if_neg (by simp [hleading]), if_neg (by rw [UInt16.le_iff_toNat_le]; simpa using hlt),
        if_pos htrailing, ih]
  | @unpaired unit units _ hunit hnext _ ih =>
      rw [decodeUtf16.eq_def]
      dsimp only
      rw [if_neg (by simp [hunit])]
      split
      · rw [ih]
      · next hge =>
          rw [UInt16.le_iff_toNat_le] at hge
          match units with
          | [] => rw [← ih]; rfl
          | next :: rest =>
              have hnot := hnext (Nat.lt_of_not_le hge) next rfl
              dsimp only
              rw [if_neg (by simp [hnot]), ih]

/-- The first code point is one of at most two code units. -/
theorem head?_decodeUtf16_take (units : List UInt16) :
    (decodeUtf16 (units.take 2)).head? = (decodeUtf16 units).head? := by
  match units with
  | [] | [_] | [_, _] => rfl
  | unit :: next :: third :: rest =>
      simp only [List.take_succ_cons, List.take_zero]
      rw [decodeUtf16.eq_def, decodeUtf16.eq_def (unit :: next :: third :: rest)]
      dsimp only
      split_ifs <;> rfl

/-- The code units of a string without unpaired surrogates are those of its characters. -/
theorem flatMap_encodeUtf16Char_of_decodeUtf16 {units : List UInt16} {chars : List Char}
    (h : decodeUtf16 units = chars.map .ok) : chars.flatMap encodeUtf16Char = units := by
  have hdecodes := decodesUtf16 units
  rw [h] at hdecodes
  clear h
  generalize hdecoded : chars.map Except.ok = decoded at hdecodes
  induction hdecodes generalizing chars with
  | nil =>
      rw [List.map_eq_nil_iff.mp hdecoded]
      rfl
  | scalar hunit _ ih =>
      obtain ⟨c, chars, rfl, hc, hrest⟩ := List.map_eq_cons_iff.mp hdecoded
      cases hc
      rw [List.flatMap_cons, encodeUtf16Char_ofNat hunit, ih hrest, List.singleton_append]
  | pair hleading hlt htrailing _ ih =>
      obtain ⟨c, chars, rfl, hc, hrest⟩ := List.map_eq_cons_iff.mp hdecoded
      injection hc with hc
      rw [List.flatMap_cons, hc, encodeUtf16Char_ofSurrogates hleading hlt htrailing, ih hrest]
      rfl
  | unpaired =>
      obtain ⟨_, _, _, hc, _⟩ := List.map_eq_cons_iff.mp hdecoded
      cases hc

end BoaLigero
