import Mathlib.Algebra.Ring.Nat
import Mathlib.Data.Int.Notation
import Mathlib.Data.Nat.Notation

/-!
# Doubles and Machine Integers

Binary64 numbers by their bits, and the two conversions between them and 32-bit integers:
the exact one from integers, and the cast to integers, which truncates, takes the nearest
integer in range, and gives zero for what is not a number.
-/

/-- A binary64 number, by its bits. -/
structure F64 where
  bits : BitVec 64
deriving DecidableEq

namespace F64

/-- The exponent field. -/
def exponent (x : F64) : ℕ := x.bits.toNat / 2 ^ 52 % 2 ^ 11

/-- The fraction field. -/
def fraction (x : F64) : ℕ := x.bits.toNat % 2 ^ 52

/-- Whether the sign bit is set. -/
def isNegative (x : F64) : Bool := 2 ^ 63 ≤ x.bits.toNat

/-- Whether the bits are not a number. -/
def isNaN (x : F64) : Bool := x.exponent = 2047 && x.fraction ≠ 0

/-- The integral part of the absolute value, where it is not infinite. -/
def truncate (x : F64) : ℕ :=
  if x.exponent < 1023 then 0 else (2 ^ 52 + x.fraction) * 2 ^ (x.exponent - 1023) / 2 ^ 52

/-- The exact conversion of an integer (`f64::from`). -/
def ofInt32 (n : Int32) : F64 :=
  let m := n.toInt.natAbs
  if m = 0 then ⟨0⟩
  else
    let sign := if n.toInt < 0 then 2 ^ 63 else 0
    ⟨BitVec.ofNat 64 (sign + (1023 + m.log2) * 2 ^ 52 + (m * 2 ^ (52 - m.log2) - 2 ^ 52))⟩

/-- The cast to an integer (`as i32`). -/
def toInt32 (x : F64) : Int32 :=
  if x.isNaN then 0
  else Int32.ofIntClamp (if x.isNegative then -(x.truncate : ℤ) else x.truncate)

end F64
