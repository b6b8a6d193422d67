import BoaLigero.Vm.PureReader.Number

/-!
# Checked Arithmetic of the Loop Summaries

A loop summary gives up in two ways: for this time, or for the rest of the frame. Both are
early exits of one computation, and so is every checked operation that overflows.
-/

namespace BoaLigero

/-- Why a plan is not applied: a later attempt may succeed (`None`), or the frame is not to
try again (`suppress_for_frame`). -/
inductive Decline where
  | retry
  | suppress
  deriving DecidableEq, Repr

/-- A value that has to be there for the plan to be worth another attempt in this frame. -/
def orSuppress {α : Type} : Option α → Except Decline α
  | some a => .ok a
  | none => .error .suppress

/-- The operator `?` on an option. -/
def orRetry {α : Type} : Option α → Except Decline α
  | some a => .ok a
  | none => .error .retry

/-- A condition under which the plan is not applied. -/
def declineIf (decline : Decline) (condition : Bool) : Except Decline Unit :=
  if condition then .error decline else .ok ()

/-- The result of a checked operation on signed integers of a width. -/
def checkedSigned (bits : ℕ) (n : ℤ) : Except Decline ℤ :=
  if -2 ^ (bits - 1) ≤ n ∧ n < 2 ^ (bits - 1) then .ok n else .error .retry

/-- A checked operation on `i64`. -/
def checkedI64 : ℤ → Except Decline ℤ := checkedSigned 64

/-- A checked operation on `i128`. -/
def checkedI128 : ℤ → Except Decline ℤ := checkedSigned 128

/-- `i32::try_from`. -/
def tryI32 (n : ℤ) : Except Decline Int32 :=
  if InI32 n then .ok (Int32.ofInt n) else .error .retry

/-- `u64::try_from` and checked operations on `u64`. -/
def checkedU64 (n : ℤ) : Except Decline UInt64 :=
  if 0 ≤ n ∧ n < 2 ^ 64 then .ok (UInt64.ofNat n.toNat) else .error .retry

/-! ### Successful computations -/

section Results

variable {α β : Type} {r : β}

/-- Two computations one after the other both succeed. -/
theorem Except.bind_eq_ok {x : Except Decline α} {f : α → Except Decline β} :
    (x >>= f) = .ok r ↔ ∃ a, x = .ok a ∧ f a = .ok r := by
  cases x <;> simp [bind, Except.bind]

theorem orSuppress_bind_eq_ok {o : Option α} {f : α → Except Decline β} :
    (orSuppress o >>= f) = .ok r ↔ ∃ a, o = some a ∧ f a = .ok r := by
  cases o <;> simp [orSuppress, bind, Except.bind]

theorem orRetry_bind_eq_ok {o : Option α} {f : α → Except Decline β} :
    (orRetry o >>= f) = .ok r ↔ ∃ a, o = some a ∧ f a = .ok r := by
  cases o <;> simp [orRetry, bind, Except.bind]

theorem declineIf_bind_eq_ok {d : Decline} {c : Bool} {f : Unit → Except Decline β} :
    (declineIf d c >>= f) = .ok r ↔ c = false ∧ f () = .ok r := by
  cases c <;> simp [declineIf, bind, Except.bind]

/-- A value that is given under a condition. -/
theorem guarded_bind_eq_ok {p : Prop} [Decidable p] {a : α} {d : Decline}
    {f : α → Except Decline β} :
    ((if p then .ok a else .error d) >>= f) = .ok r ↔ p ∧ f a = .ok r := by
  by_cases hp : p <;> simp [hp, bind, Except.bind]

/-- A checked operation returns the exact result. -/
theorem checkedSigned_bind_eq_ok {bits : ℕ} {n : ℤ} {f : ℤ → Except Decline β} :
    (checkedSigned bits n >>= f) = .ok r ↔
      (-2 ^ (bits - 1) ≤ n ∧ n < 2 ^ (bits - 1)) ∧ f n = .ok r :=
  guarded_bind_eq_ok

theorem tryI32_bind_eq_ok {n : ℤ} {f : Int32 → Except Decline β} :
    (tryI32 n >>= f) = .ok r ↔ InI32 n ∧ f (Int32.ofInt n) = .ok r :=
  guarded_bind_eq_ok

theorem checkedU64_bind_eq_ok {n : ℤ} {f : UInt64 → Except Decline β} :
    (checkedU64 n >>= f) = .ok r ↔ (0 ≤ n ∧ n < 2 ^ 64) ∧ f (UInt64.ofNat n.toNat) = .ok r :=
  guarded_bind_eq_ok

end Results

end BoaLigero
