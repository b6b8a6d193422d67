import BoaLigero.Util.ByteFormat
import BoaLigero.Util.Double

/-!
# Operands as Bytes

The operands of an instruction are written behind its opcode: integers as their little-endian
bytes, a float as the bytes of its bits, a vector as its length in four bytes and its elements,
a tuple as its components. Decoding is given the whole bytecode and a position; bytecode that is
too short there is a panic.

## Main results

* `LawfulArgument` — an argument is decoded from its bytes, wherever they stand; integers,
  floats, tuples and vectors with fewer than `2 ^ 32` elements are.
-/

namespace BoaLigero

open ByteFormat Machine

/-- Operands of instructions. -/
class Argument (A : Type) where
  /-- The bytes of the argument. -/
  encode : A → List UInt8
  /-- The argument at a position, and the position behind it. -/
  decode : List UInt8 → ℕ → Option (A × ℕ)

open Argument (encode decode)

/-- What is decoded from the bytes of an argument is the argument. -/
class LawfulArgument (A : Type) [Argument A] where
  /-- The arguments whose lengths are written without loss. -/
  Fits : A → Prop
  readsBack : ∀ a : A, Fits a → ReadsBack decode (encode a) a

open LawfulArgument (Fits)

/-- A number of this width, read from its bytes (`read`). -/
def read {A : Type} (width : ℕ) (ofNat : ℕ → A) (bytes : List UInt8) (offset : ℕ) :
    Option (A × ℕ) :=
  (readBytes width bytes offset).map fun (value, offset) => (ofNat (ofLeBytes value), offset)

/-- A number that fits is read back from its bytes in little-endian order, and the rest is left. -/
theorem readsBack_read {A : Type} {width : ℕ} {ofNat : ℕ → A} {n : ℕ} {a : A}
    (hwidth : 0 < width) (h : n < 256 ^ width) (ha : ofNat n = a) :
    ReadsBack (read width ofNat) (toLeBytes width n) a := by
  intro bytes pos hat
  have hne : toLeBytes width n ≠ [] := by
    rw [← List.length_pos_iff, length_toLeBytes]
    exact hwidth
  have hread := readBytes_of_fragmentAt hat hne
  rw [length_toLeBytes] at hread ⊢
  simp only [read, hread, Option.map_some, ofLeBytes_toLeBytes h, ha]

/-! ### Integers and floats -/

/-- An unsigned integer of 32 bits takes four bytes. -/
instance : Argument UInt32 where
  encode value := toLeBytes 4 value.toNat
  decode := read 4 UInt32.ofNat

/-- An unsigned integer of 64 bits takes eight bytes. -/
instance : Argument UInt64 where
  encode value := toLeBytes 8 value.toNat
  decode := read 8 UInt64.ofNat

/-- A signed byte is written as its bit pattern. -/
instance : Argument Int8 where
  encode value := toLeBytes 1 value.toBitVec.toNat
  decode := read 1 fun n => Int8.ofBitVec (BitVec.ofNat 8 n)

/-- A signed integer of 16 bits is written as its bit pattern. -/
instance : Argument Int16 where
  encode value := toLeBytes 2 value.toBitVec.toNat
  decode := read 2 fun n => Int16.ofBitVec (BitVec.ofNat 16 n)

/-- A signed integer of 32 bits is written as its bit pattern. -/
instance : Argument Int32 where
  encode value := toLeBytes 4 value.toBitVec.toNat
  decode := read 4 fun n => Int32.ofBitVec (BitVec.ofNat 32 n)

/-- A binary32 number, by its bits. -/
structure F32 where
  bits : BitVec 32
deriving DecidableEq

/-- A float of 32 bits is written as its bit pattern. -/
instance : Argument F32 where
  encode value := toLeBytes 4 value.bits.toNat
  decode := read 4 fun n => ⟨BitVec.ofNat 32 n⟩

/-- A float of 64 bits is written as its bit pattern. -/
instance : Argument F64 where
  encode value := toLeBytes 8 value.bits.toNat
  decode := read 8 fun n => ⟨BitVec.ofNat 64 n⟩

/-- An unsigned integer of 32 bits is read back as it was written. -/
instance : LawfulArgument UInt32 where
  Fits _ := True
  readsBack value _ := readsBack_read (by omega) value.toNat_lt UInt32.ofNat_toNat

/-- An unsigned integer of 64 bits is read back as it was written. -/
instance : LawfulArgument UInt64 where
  Fits _ := True
  readsBack value _ := readsBack_read (by omega) value.toNat_lt UInt64.ofNat_toNat

/-- A signed byte is read back as it was written. -/
instance : LawfulArgument Int8 where
  Fits _ := True
  readsBack value _ := readsBack_read (by omega) value.toBitVec.isLt (by simp)

/-- A signed integer of 16 bits is read back as it was written. -/
instance : LawfulArgument Int16 where
  Fits _ := True
  readsBack value _ := readsBack_read (by omega) value.toBitVec.isLt (by simp)

/-- A signed integer of 32 bits is read back as it was written. -/
instance : LawfulArgument Int32 where
  Fits _ := True
  readsBack value _ := readsBack_read (by omega) value.toBitVec.isLt (by simp)

/-- A float of 32 bits is read back with its bit pattern. -/
instance : LawfulArgument F32 where
  Fits _ := True
  readsBack value _ := readsBack_read (by omega) value.bits.isLt (by simp)

/-- A float of 64 bits is read back with its bit pattern. -/
instance : LawfulArgument F64 where
  Fits _ := True
  readsBack value _ := readsBack_read (by omega) value.bits.isLt (by simp)

/-! ### Tuples and vectors -/

/-- No arguments take no bytes. -/
instance : Argument Unit where
  encode _ := []
  decode _ pos := some ((), pos)

/-- No arguments are read back without looking at any byte. -/
instance : LawfulArgument Unit where
  Fits _ := True
  readsBack _ _ _ _ _ := rfl

variable {A B : Type} [Argument A] [Argument B]

/-- A tuple of arguments is written from left to right. -/
instance : Argument (A × B) where
  encode args := encode args.1 ++ encode args.2
  decode bytes pos := do
    let (a, pos) ← decode bytes pos
    let (b, pos) ← decode bytes pos
    return ((a, b), pos)

/-- A tuple is read back, as each of its parts takes just its own bytes. -/
instance [LawfulArgument A] [LawfulArgument B] : LawfulArgument (A × B) where
  Fits args := Fits args.1 ∧ Fits args.2
  readsBack args hfits bytes pos hat := by
    obtain ⟨hfirst, hsecond⟩ := FragmentAt.append hat
    have ha := LawfulArgument.readsBack args.1 hfits.1 bytes pos hfirst
    have hb := LawfulArgument.readsBack args.2 hfits.2 bytes _ hsecond
    simp only [decode, encode] at ha hb ⊢
    simp only [ha, hb, Option.bind_eq_bind, Option.bind_some, Option.pure_def, List.length_append,
      Nat.add_assoc]

/-- A vector (`ThinVec`): its length, cut to 32 bits, and its elements. -/
instance : Argument (List A) where
  encode values := encode (UInt32.ofNat values.length) ++ values.flatMap encode
  decode bytes pos := do
    let (len, pos) ← (decode bytes pos : Option (UInt32 × ℕ))
    readMany decode len.toNat bytes pos

/-- A vector is read back: its length is written first, and says how many elements follow. -/
instance [LawfulArgument A] : LawfulArgument (List A) where
  Fits values := values.length < 2 ^ 32 ∧ ∀ a ∈ values, Fits a
  readsBack values hfits bytes pos hat := by
    obtain ⟨hlen, hvalues⟩ := FragmentAt.append hat
    have hread := LawfulArgument.readsBack (UInt32.ofNat values.length) trivial bytes pos hlen
    have hmany := ReadsBack.many (fun a ha => LawfulArgument.readsBack a (hfits.2 a ha)) bytes _
      hvalues
    have hnat : (UInt32.ofNat values.length).toNat = values.length := by
      rw [UInt32.toNat_ofNat', Nat.mod_eq_of_lt hfits.1]
    simp only [decode, encode, hnat] at hread hmany ⊢
    simp only [hread, Option.bind_eq_bind, Option.bind_some, hnat, hmany, List.length_append,
      Nat.add_assoc]

end BoaLigero
