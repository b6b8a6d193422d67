import Mathlib.Algebra.Ring.Nat
import BoaLigero.String.CodePoint

/-!
# UTF-8

The bytes that Rust takes for a string (`str::from_utf8`), and what the first byte of a character
tells about the others.

## Main results

* `fromUtf8_eq_some_iff` — the bytes of a string, and no others, are taken for it.
* `exists_char_of_leadingOnes` — as many bytes as the first one announces are one character.
-/

namespace BoaLigero

/-- The number of leading one bits of a byte (`u8::leading_ones`). -/
def leadingOnes (b : UInt8) : ℕ :=
  ((List.range 8).takeWhile fun i => b.toNat.testBit (7 - i)).length

/-- The string that the bytes encode (`str::from_utf8`). -/
def fromUtf8 (bytes : List UInt8) : Option String := String.fromUTF8? bytes.toByteArray

/-- The bytes of a string are its array of bytes. -/
theorem toByteArray_asBytes (s : String) : (asBytes s).toByteArray = s.toByteArray := by
  rw [← String.utf8Encode_toList]
  rfl

/-- **The bytes of a string**, and no others, are taken for it. -/
theorem fromUtf8_eq_some_iff {bytes : List UInt8} {s : String} :
    fromUtf8 bytes = some s ↔ bytes = asBytes s := by
  rw [fromUtf8, String.fromUTF8?]
  constructor
  · intro h
    split at h
    · cases h
      rw [← List.toByteArray_inj, toByteArray_asBytes]
      rfl
    · cases h
  · rintro rfl
    rw [toByteArray_asBytes, dif_pos s.isValidUTF8]
    rfl

/-! ### The first byte -/

/-- The leading ones are counted from the highest bit. -/
theorem leadingOnes_eq (b : UInt8) : leadingOnes b =
    ([7, 6, 5, 4, 3, 2, 1, 0].takeWhile b.toNat.testBit).length := by
  rw [leadingOnes, show [7, 6, 5, 4, 3, 2, 1, 0] = (List.range 8).map (7 - ·) from rfl,
    List.takeWhile_map, List.length_map]
  rfl

/-- The first bytes of two, three and four announce them. -/
theorem leadingOnes_first (b : UInt8) :
    leadingOnes (b &&& 0x1F ||| 0xC0) = 2 ∧ leadingOnes (b &&& 0x0F ||| 0xE0) = 3 ∧
      leadingOnes (b &&& 0x07 ||| 0xF0) = 4 := by
  simp only [leadingOnes_eq, UInt8.toNat_or, UInt8.toNat_and, Nat.testBit_or, Nat.testBit_and,
    List.takeWhile_cons]
  simp [Nat.testBit_eq_decide_div_mod_eq]

/-- A byte without leading ones is an ASCII byte. -/
theorem leadingOnes_eq_zero_iff (b : UInt8) : leadingOnes b = 0 ↔ b.toNat < 0x80 := by
  have hb : b.toNat < 256 := b.toNat_lt
  have hbit : b.toNat.testBit 7 = decide (0x80 ≤ b.toNat) := by
    rw [Nat.testBit_eq_decide_div_mod_eq, decide_eq_decide]
    omega
  rw [leadingOnes_eq, List.length_eq_zero_iff]
  simp [List.takeWhile_cons, hbit]

/-- The characters of one byte are the ASCII characters. -/
theorem utf8Size_eq_one_iff {c : Char} : c.utf8Size = 1 ↔ c.toNat < 0x80 := by
  rw [Char.utf8Size_eq_one_iff, UInt32.le_iff_toNat_le]
  exact Nat.lt_succ_iff.symm

/-- **The first byte of a character** announces the number of its bytes. -/
theorem leadingOnes_utf8EncodeChar {c : Char} {b : UInt8} {bytes : List UInt8}
    (h : String.utf8EncodeChar c = b :: bytes) :
    leadingOnes b = if c.toNat < 0x80 then 0 else bytes.length + 1 := by
  have hlength := congrArg List.length h
  rw [String.length_utf8EncodeChar, List.length_cons] at hlength
  rcases c.utf8Size_eq with hsize | hsize | hsize | hsize
  · have hlt := utf8Size_eq_one_iff.mp hsize
    rw [(encode_of_lt hlt).1] at h
    cases h
    rw [if_pos hlt, leadingOnes_eq_zero_iff, UInt8.toNat_ofNat']
    omega
  all_goals rw [← hlength, if_neg (by rw [← utf8Size_eq_one_iff]; omega), hsize]
  · rw [String.utf8EncodeChar_eq_cons_cons hsize] at h
    cases h
    exact (leadingOnes_first _).1
  · rw [String.utf8EncodeChar_eq_cons_cons_cons hsize] at h
    cases h
    exact (leadingOnes_first _).2.1
  · rw [String.utf8EncodeChar_eq_cons_cons_cons_cons hsize] at h
    cases h
    exact (leadingOnes_first _).2.2

/-- **As many bytes as the first one announces** are one character. -/
theorem exists_char_of_leadingOnes {b : UInt8} {bytes : List UInt8} {s : String}
    (h : fromUtf8 (b :: bytes) = some s) (hb : leadingOnes b = bytes.length + 1) :
    ∃ c, s.toList = [c] ∧ b :: bytes = String.utf8EncodeChar c := by
  rw [fromUtf8_eq_some_iff, asBytes] at h
  cases hs : s.toList with
  | nil =>
      rw [hs] at h
      cases h
  | cons c cs =>
      rw [hs, List.flatMap_cons] at h
      cases hc : String.utf8EncodeChar c with
      | nil => exact absurd hc String.utf8EncodeChar_ne_nil
      | cons b' bytes' =>
          rw [hc, List.cons_append] at h
          cases h
          have hfirst := leadingOnes_utf8EncodeChar hc
          rw [hb] at hfirst
          have hrest : (cs.flatMap String.utf8EncodeChar).length = 0 := by
            rw [List.length_append] at hfirst
            split at hfirst <;> omega
          cases cs with
          | nil => exact ⟨c, rfl, by simp [hc]⟩
          | cons d ds =>
              rw [List.flatMap_cons, List.length_append, String.length_utf8EncodeChar] at hrest
              have hpos := d.utf8Size_pos
              omega

/-- A character is taken for itself. -/
theorem fromUtf8_utf8EncodeChar (c : Char) :
    fromUtf8 (String.utf8EncodeChar c) = some (String.singleton c) := by
  rw [fromUtf8_eq_some_iff, asBytes]
  simp

end BoaLigero
