import Mathlib.Logic.Function.Iterate
import Mathlib.Data.Nat.Notation

/-!
# Exponentiation by Squaring

The loop that multiplies a power into a product, one bit of a 64-bit exponent at a time. No
law is asked of the multiplication itself: it is enough that multiplying composes the maps
that the factors stand for.

## Main results

* `act_squareMultiply` — the result acts like the first factor after as many rounds of the
  power as the exponent says.
-/

/-- An exponent is twice its half and its lowest bit. -/
theorem UInt64.toNat_eq_two_mul_add (count : UInt64) :
    count.toNat = 2 * (count >>> 1).toNat + (if count &&& 1 ≠ 0 then 1 else 0) := by
  have hhalf : (count >>> 1).toNat = count.toNat / 2 := by
    simp [UInt64.toNat_shiftRight, Nat.shiftRight_eq_div_pow]
  have hbit : count &&& 1 = 0 ↔ count.toNat % 2 = 0 := by
    rw [← UInt64.toNat_inj, UInt64.toNat_and]
    simp
  rw [hhalf]
  split <;> rename_i h <;> rw [ne_eq, hbit] at h <;> omega

/-- Multiply `combined` by as many factors `power` as `count` says. The power is squared only
while bits are left. -/
def squareMultiply {M : Type*} (mul : M → M → M) (combined power : M) (count : UInt64) : M :=
  if _ : count = 0 then combined
  else
    squareMultiply mul (if count &&& 1 ≠ 0 then mul combined power else combined)
      (if count >>> 1 ≠ 0 then mul power power else power) (count >>> 1)
termination_by count.toNat
decreasing_by
  rename_i hne
  have hpos : count.toNat ≠ 0 := fun h => hne (UInt64.toNat_inj.mp h)
  have := count.toNat_eq_two_mul_add
  omega

/-- **Squaring is iterating**: where products act by composition, the loop's result acts like
`combined` after `count` rounds of `power`. -/
theorem act_squareMultiply {M X : Type*} {mul : M → M → M} {act : M → X → X}
    (hmul : ∀ a b x, act (mul a b) x = act a (act b x)) (combined power : M) (count : UInt64)
    (x : X) :
    act (squareMultiply mul combined power count) x =
      act combined ((act power)^[count.toNat] x) := by
  induction combined, power, count using squareMultiply.induct mul with
  | case1 combined power => simp [squareMultiply]
  | case2 combined power count hne ih =>
      simp only [dite_eq_ite] at ih
      have hcombined : ∀ x, act (if count &&& 1 ≠ 0 then mul combined power else combined) x =
          act combined ((act power)^[if count &&& 1 ≠ 0 then 1 else 0] x) := by
        intro x
        split <;> simp [hmul]
      have hpower : (act (if count >>> 1 ≠ 0 then mul power power else power))^[(count >>> 1).toNat]
          = (act power)^[2 * (count >>> 1).toNat] := by
        split
        · rw [Function.iterate_mul]
          congr 1
          funext x
          simp [hmul]
        · next hhalf => simp [not_not.mp hhalf]
      rw [squareMultiply, dif_neg hne, ih, hcombined, hpower, ← Function.iterate_add_apply,
        count.toNat_eq_two_mul_add, Nat.add_comm]
