import Mathlib.Data.List.Induction
import Mathlib.Tactic.Ring

/-!
# Digits

The numbers that sequences of digits denote, in any base, the most significant digit first.

## Main results

* `ofDigits_append` — digits that are read after others.
* `exists_first_reaching` — the first digits with which a bound is reached.
-/

namespace Digits

/-- The number that digits denote. -/
def ofDigits (base : ℕ) (digits : List ℕ) : ℕ := digits.foldl (fun n d => n * base + d) 0

variable {base : ℕ} {digits front rest : List ℕ}

/-- Digits that follow on a number shift it to the left and add their own value. -/
theorem foldl_digits (digits : List ℕ) (n : ℕ) :
    digits.foldl (fun n d => n * base + d) n = n * base ^ digits.length + ofDigits base digits := by
  induction digits generalizing n with
  | nil => simp [ofDigits]
  | cons d digits ih =>
      have hcons : ofDigits base (d :: digits) = d * base ^ digits.length + ofDigits base digits := by
        rw [ofDigits, List.foldl_cons, ih, Nat.zero_mul, Nat.zero_add]
      rw [List.foldl_cons, ih, hcons, List.length_cons]
      ring

/-- The value of a front of digits is shifted by the number of digits behind it. -/
theorem ofDigits_append (front rest : List ℕ) :
    ofDigits base (front ++ rest) =
      ofDigits base front * base ^ rest.length + ofDigits base rest := by
  rw [ofDigits, List.foldl_append, ← ofDigits, foldl_digits]

/-- One more digit multiplies the value by the base and is added. -/
theorem ofDigits_concat (digits : List ℕ) (d : ℕ) :
    ofDigits base (digits ++ [d]) = ofDigits base digits * base + d := by
  rw [ofDigits, List.foldl_append]
  rfl

/-- A numeral is below the power of the base with the number of its digits. -/
theorem ofDigits_lt (hdigits : ∀ d ∈ digits, d < base) :
    ofDigits base digits < base ^ digits.length := by
  induction digits using List.reverseRecOn with
  | nil => exact one_pos
  | append_singleton digits d ih =>
      have hlt := ih fun d hd => hdigits d (List.mem_append_left _ hd)
      have hd := hdigits d (List.mem_append_right _ (List.mem_singleton_self d))
      rw [ofDigits_concat, List.length_append, List.length_singleton, pow_succ]
      calc ofDigits base digits * base + d < (ofDigits base digits + 1) * base := by
            rw [Nat.succ_mul]
            omega
        _ ≤ base ^ digits.length * base := Nat.mul_le_mul_right base hlt

/-- Digits that are read after others multiply what was read. -/
theorem ofDigits_mul_le (front rest : List ℕ) :
    ofDigits base front * base ^ rest.length ≤ ofDigits base (front ++ rest) := by
  rw [ofDigits_append]
  exact Nat.le_add_right _ _

/-- Digits that are added at the end do not make a numeral smaller. -/
theorem ofDigits_le_append (hbase : 0 < base) (front rest : List ℕ) :
    ofDigits base front ≤ ofDigits base (front ++ rest) :=
  (Nat.le_mul_of_pos_right _ (Nat.pow_pos hbase)).trans (ofDigits_mul_le front rest)

/-- The first digits with which a bound is reached. -/
theorem exists_first_reaching {bound : ℕ} (hbound : 0 < bound) (h : bound ≤ ofDigits base digits) :
    ∃ front d rest, digits = (front ++ [d]) ++ rest ∧ ofDigits base front < bound ∧
      bound ≤ ofDigits base (front ++ [d]) := by
  induction digits using List.reverseRecOn with
  | nil => exact absurd h hbound.not_ge
  | append_singleton digits d ih =>
      obtain hlt | hge := Nat.lt_or_ge (ofDigits base digits) bound
      · exact ⟨digits, d, [], (List.append_nil _).symm, hlt, h⟩
      · obtain ⟨front, d', rest, rfl, hfront, hreach⟩ := ih hge
        exact ⟨front, d', rest ++ [d], List.append_assoc _ _ _, hfront, hreach⟩

end Digits
