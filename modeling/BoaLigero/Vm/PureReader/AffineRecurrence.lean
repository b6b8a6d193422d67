import Mathlib.Data.List.Basic
import BoaLigero.Util.IntegerDouble
import BoaLigero.Util.SquareMultiply

/-!
# The Affine Recurrence of a Numeric Loop

`wrapping_affine_index_recurrence`: the loop
`acc = (acc + i) | 0; acc = (acc * multiplier) | 0; acc = (acc - offset) | 0` over consecutive
indices, taken to the end by squaring a matrix modulo `2 ^ 32`. A matrix acts on the vector
of accumulator, index and one.

## Main results

* `WrappingMatrix.apply_multiply` — the product of two matrices acts like both in turn.
* `wrappingAffineIndexRecurrence_eq` — the result is that of the loop.
-/

namespace BoaLigero

/-! ### The source -/

/-- `[[u32; 3]; 3]`. -/
abbrev WrappingMatrix := Vector (Vector UInt32 3) 3

/-- `wrapping_matrix_multiply`. -/
def wrappingMatrixMultiply (lhs rhs : WrappingMatrix) : WrappingMatrix :=
  Vector.ofFn fun row => Vector.ofFn fun column =>
    (List.finRange 3).foldl (fun cell inner => cell + lhs[row][inner] * rhs[inner][column]) 0

/-- The sum of the products of the coefficients in a row and the values in a vector. -/
def wrappingDot (coefficients values : Vector UInt32 3) : UInt32 :=
  (List.finRange 3).foldl (fun sum i => sum + coefficients[i] * values[i]) 0

/-- The matrix of one iteration. -/
def iterationMatrix (multiplier offset : Int32) : WrappingMatrix :=
  let multiplier := multiplier.toUInt32
  #v[#v[multiplier, multiplier, 0 - offset.toUInt32], #v[0, 1, 1], #v[0, 0, 1]]

/-- `wrapping_affine_index_recurrence`. -/
def wrappingAffineIndexRecurrence (accumulator startIndex : Int32) (count : UInt64)
    (multiplier offset : Int32) : Int32 :=
  let power := iterationMatrix multiplier offset
  let combined : WrappingMatrix := #v[#v[1, 0, 0], #v[0, 1, 0], #v[0, 0, 1]]
  let combined := squareMultiply wrappingMatrixMultiply combined power count
  let input := #v[accumulator.toUInt32, startIndex.toUInt32, 1]
  (wrappingDot combined[0] input).toInt32

/-! ### The loop -/

/-- Accumulator and index. -/
structure AffineState where
  accumulator : Int32
  index : Int32
  deriving DecidableEq, Repr

/-- One iteration, its result reduced modulo `2 ^ 32` once. -/
def AffineState.next (multiplier offset : Int32) (s : AffineState) : AffineState where
  accumulator :=
    Int32.ofInt ((s.accumulator.toInt + s.index.toInt) * multiplier.toInt - offset.toInt)
  index := Int32.ofInt (s.index.toInt + 1)

/-- A double operation with the given exact result, followed by `| 0`. -/
def wrapDouble (exact : ℤ) : Int32 := Int32.ofInt (roundToDouble exact)

/-- One iteration as the source writes it: three double operations, each followed by `| 0`. -/
def AffineState.nextDouble (multiplier offset : Int32) (s : AffineState) : AffineState :=
  let accumulator := wrapDouble (s.accumulator.toInt + s.index.toInt)
  let accumulator := wrapDouble (accumulator.toInt * multiplier.toInt)
  let accumulator := wrapDouble (accumulator.toInt - offset.toInt)
  { accumulator, index := Int32.ofInt (s.index.toInt + 1) }

/-! ### Matrices as maps -/

/-- A matrix acts on a vector by its rows. -/
def WrappingMatrix.apply (m : WrappingMatrix) (v : Vector UInt32 3) : Vector UInt32 3 :=
  Vector.ofFn fun row => wrappingDot m[row] v

/-- The sums of products of a row, multiplied out. -/
private theorem row_mul_mul (x y : Fin 3 → UInt32) (m : Fin 3 → Fin 3 → UInt32) :
    (x 0 * m 0 0 + x 1 * m 1 0 + x 2 * m 2 0) * y 0 +
        (x 0 * m 0 1 + x 1 * m 1 1 + x 2 * m 2 1) * y 1 +
        (x 0 * m 0 2 + x 1 * m 1 2 + x 2 * m 2 2) * y 2 =
      x 0 * (m 0 0 * y 0 + m 0 1 * y 1 + m 0 2 * y 2) +
        x 1 * (m 1 0 * y 0 + m 1 1 * y 1 + m 1 2 * y 2) +
        x 2 * (m 2 0 * y 0 + m 2 1 * y 1 + m 2 2 * y 2) := by
  grind

/-- **Products compose**: a product acts like its right factor and then its left one. -/
theorem WrappingMatrix.apply_multiply (a b : WrappingMatrix) (v : Vector UInt32 3) :
    (wrappingMatrixMultiply a b).apply v = a.apply (b.apply v) := by
  refine Vector.ext fun i hi => ?_
  simp only [apply, wrappingDot, wrappingMatrixMultiply, Vector.getElem_ofFn, Fin.getElem_fin,
    List.finRange_succ, List.finRange_zero, List.map_nil, List.map_cons, List.foldl,
    UInt32.zero_add]
  exact row_mul_mul (fun k => a[i][k]) (fun k => v[k]) (fun k l => b[k][l])

/-- The identity acts as the identity. -/
theorem WrappingMatrix.apply_identity (v : Vector UInt32 3) :
    WrappingMatrix.apply #v[#v[1, 0, 0], #v[0, 1, 0], #v[0, 0, 1]] v = v := by
  ext i hi
  obtain rfl | rfl | rfl : i = 0 ∨ i = 1 ∨ i = 2 := by omega
  all_goals simp [apply, wrappingDot, List.finRange_succ]

/-- The vector of a state: its bits, and a one for the offset. -/
def AffineState.vector (s : AffineState) : Vector UInt32 3 :=
  #v[s.accumulator.toUInt32, s.index.toUInt32, 1]

/-- The arithmetic of one iteration on machine integers. -/
theorem AffineState.next_eq (multiplier offset : Int32) (s : AffineState) :
    s.next multiplier offset =
      ⟨(s.accumulator + s.index) * multiplier - offset, s.index + 1⟩ := by
  simp [next]

/-- The iteration's matrix performs the iteration. -/
theorem iterationMatrix_apply (multiplier offset : Int32) (s : AffineState) :
    (iterationMatrix multiplier offset).apply s.vector = (s.next multiplier offset).vector := by
  rw [s.next_eq]
  refine Vector.ext fun i hi => ?_
  obtain rfl | rfl | rfl : i = 0 ∨ i = 1 ∨ i = 2 := by omega
  · simp [WrappingMatrix.apply, wrappingDot, iterationMatrix, AffineState.vector,
      List.finRange_succ]
    grind
  · simp [WrappingMatrix.apply, wrappingDot, iterationMatrix, AffineState.vector,
      List.finRange_succ]
    rfl
  · simp [WrappingMatrix.apply, wrappingDot, iterationMatrix, AffineState.vector,
      List.finRange_succ]

/-- Iterating the matrix iterates the loop. -/
theorem iterationMatrix_iterate (multiplier offset : Int32) (n : ℕ) (s : AffineState) :
    (iterationMatrix multiplier offset).apply^[n] s.vector =
      ((AffineState.next multiplier offset)^[n] s).vector := by
  induction n generalizing s with
  | zero => rfl
  | succ n ih => simp only [Function.iterate_succ_apply, iterationMatrix_apply, ih]

/-- The closed form is the accumulator after as many iterations as the count says. -/
theorem wrappingAffineIndexRecurrence_eq_iterate (accumulator startIndex : Int32)
    (count : UInt64) (multiplier offset : Int32) :
    wrappingAffineIndexRecurrence accumulator startIndex count multiplier offset =
      ((AffineState.next multiplier offset)^[count.toNat] ⟨accumulator, startIndex⟩).accumulator := by
  have hact := act_squareMultiply WrappingMatrix.apply_multiply
    #v[#v[1, 0, 0], #v[0, 1, 0], #v[0, 0, 1]] (iterationMatrix multiplier offset) count
    (AffineState.vector ⟨accumulator, startIndex⟩)
  rw [WrappingMatrix.apply_identity, iterationMatrix_iterate] at hact
  have hrow := congrArg (fun v => v[0].toInt32) hact
  simpa [wrappingAffineIndexRecurrence, WrappingMatrix.apply, AffineState.vector] using hrow

/-! ### Exactness -/

/-- An exact result below `2 ^ 53` is not rounded. -/
theorem wrapDouble_eq {exact : ℤ} (h : exact.natAbs < 2 ^ 53) :
    wrapDouble exact = Int32.ofInt exact := by
  rw [wrapDouble, roundToDouble_of_natAbs_lt h]

/-- A product by a factor of at most 22 bits stays below `2 ^ 53`. -/
theorem natAbs_mul_lt (a multiplier : Int32) (hm : multiplier.toInt.natAbs ≤ 2 ^ 21) :
    (a.toInt * multiplier.toInt).natAbs < 2 ^ 53 := by
  have ha : a.toInt.natAbs ≤ 2 ^ 31 := by
    have := a.le_toInt
    have := a.toInt_lt
    omega
  calc (a.toInt * multiplier.toInt).natAbs
      = a.toInt.natAbs * multiplier.toInt.natAbs := Int.natAbs_mul ..
    _ ≤ 2 ^ 31 * 2 ^ 21 := Nat.mul_le_mul ha hm
    _ < 2 ^ 53 := by decide

/-- Sums and differences of machine integers stay below `2 ^ 53`. -/
theorem wrapDouble_add_sub (a b : Int32) :
    wrapDouble (a.toInt + b.toInt) = a + b ∧ wrapDouble (a.toInt - b.toInt) = a - b := by
  have := a.le_toInt
  have := a.toInt_lt
  have := b.le_toInt
  have := b.toInt_lt
  constructor
  · rw [wrapDouble_eq (by omega)]; simp
  · rw [wrapDouble_eq (by omega)]; simp

/-- With a small multiplier the three rounded steps are one exact step. -/
theorem AffineState.nextDouble_eq {multiplier : Int32} (hm : multiplier.toInt.natAbs ≤ 2 ^ 21)
    (offset : Int32) (s : AffineState) :
    s.nextDouble multiplier offset = s.next multiplier offset := by
  rw [next_eq, nextDouble, (wrapDouble_add_sub _ _).1, wrapDouble_eq (natAbs_mul_lt _ _ hm),
    (wrapDouble_add_sub _ _).2]
  simp only [Int32.ofInt_mul, Int32.ofInt_add, Int32.ofInt_toInt]
  rfl

/-! ### Correctness -/

/-- **The closed form is the loop**: for every count the result is that of iterating with a
reduction modulo `2 ^ 32`, and for small multipliers also that of iterating with doubles. -/
theorem wrappingAffineIndexRecurrence_eq (accumulator startIndex : Int32) (count : UInt64)
    (multiplier offset : Int32) :
    wrappingAffineIndexRecurrence accumulator startIndex count multiplier offset =
        ((AffineState.next multiplier offset)^[count.toNat]
          ⟨accumulator, startIndex⟩).accumulator ∧
      (multiplier.toInt.natAbs ≤ 2 ^ 21 →
        wrappingAffineIndexRecurrence accumulator startIndex count multiplier offset =
          ((AffineState.nextDouble multiplier offset)^[count.toNat]
            ⟨accumulator, startIndex⟩).accumulator) := by
  refine ⟨wrappingAffineIndexRecurrence_eq_iterate .., fun hm => ?_⟩
  rw [wrappingAffineIndexRecurrence_eq_iterate,
    funext (AffineState.nextDouble_eq hm offset)]

theorem wrappingAffineIndexRecurrence_three :
    wrappingAffineIndexRecurrence 0 1 3 3 7 =
      ((AffineState.nextDouble 3 7)^[UInt64.toNat 3] ⟨0, 1⟩).accumulator :=
  (wrappingAffineIndexRecurrence_eq 0 1 3 3 7).2 (by decide)

end BoaLigero
