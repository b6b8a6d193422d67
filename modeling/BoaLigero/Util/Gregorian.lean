import Mathlib.Data.Int.ConditionallyCompleteOrder
import Mathlib.Algebra.BigOperators.Fin
import Mathlib.Algebra.Order.Group.Int
import Mathlib.Algebra.Order.Group.Unbundled.Abs
import Mathlib.Algebra.Order.Group.Abs
import Mathlib.Order.Interval.Set.Basic
import Mathlib.Data.Int.LeastGreatest
import Mathlib.Order.SuccPred.IntervalSucc
import Mathlib.Order.Interval.Finset.Nat
import Mathlib.Tactic.IntervalCases
import Mathlib.Tactic.Ring

/-!
# The Proleptic Gregorian Calendar

Days counted from the first of January 1970, for all years before and after it: the leap rule,
the first day of a year as the sum of the lengths of the years between, and the months within a
year. Months count from zero, the days of a month from one.

## Main results

* `firstDay_eq`: the first day of a year in closed form;
* `isGreatest_year`: the year of a day is the greatest one that starts no later;
* `abs_firstDay_sub_le`: a year starts within two days of its place in the average calendar.
-/

open Finset

namespace Gregorian

/-- Every fourth year, of the full centuries only every fourth. -/
def IsLeap (y : ℤ) : Prop := y % 4 = 0 ∧ (y % 100 = 0 → y % 400 = 0)

instance : DecidablePred IsLeap := fun y =>
  inferInstanceAs (Decidable (y % 4 = 0 ∧ (y % 100 = 0 → y % 400 = 0)))

/-- The number of days of a year. -/
def yearLength (y : ℤ) : ℤ := if IsLeap y then 366 else 365

/-- The first day of a year: the days of the years since 1970, or less those until then. -/
def firstDay (y : ℤ) : ℤ :=
  if 1970 ≤ y then ∑ i ∈ range (y - 1970).toNat, yearLength (1970 + i)
  else -∑ i ∈ range (1970 - y).toNat, yearLength (1969 - i)

/-- The number of days of a month. -/
def monthLength (y : ℤ) : ℕ → ℤ
  | 1 => if IsLeap y then 29 else 28
  | 3 | 5 | 8 | 10 => 30
  | _ => 31

/-- The days of a year before a month. -/
def daysBefore (y : ℤ) (m : ℕ) : ℤ := ∑ i ∈ range m, monthLength y i

/-- One in a leap year. -/
def leapDay (y : ℤ) : ℤ := if IsLeap y then 1 else 0

/-- The days before a month in a common year. -/
def commonDaysBefore : ℕ → ℤ
  | 0 => 0
  | 1 => 31
  | 2 => 59
  | 3 => 90
  | 4 => 120
  | 5 => 151
  | 6 => 181
  | 7 => 212
  | 8 => 243
  | 9 => 273
  | 10 => 304
  | 11 => 334
  | _ => 365

/-- The day of a date. -/
def dayNumber (y : ℤ) (m : ℕ) (d : ℤ) : ℤ := firstDay y + daysBefore y m + (d - 1)

/-! ### Years -/

theorem yearLength_pos (y : ℤ) : 0 < yearLength y := by
  unfold yearLength
  split <;> omega

@[simp]
theorem firstDay_epoch : firstDay 1970 = 0 := by simp [firstDay]

/-- Each year starts where the one before it ends. -/
theorem firstDay_succ (y : ℤ) : firstDay (y + 1) = firstDay y + yearLength y := by
  obtain hlt | rfl | hle : y < 1969 ∨ y = 1969 ∨ 1970 ≤ y := by omega
  · obtain ⟨n, hn⟩ : ∃ n : ℕ, y = 1968 - n := ⟨(1968 - y).toNat, by omega⟩
    have hnow : (1970 - y).toNat = n + 1 + 1 := by omega
    have hnext : (1970 - (y + 1)).toNat = n + 1 := by omega
    have hlast : (1969 : ℤ) - (n + 1 : ℕ) = y := by omega
    rw [firstDay, firstDay, if_neg (by omega), if_neg (by omega), hnow, hnext,
      sum_range_succ _ (n + 1), hlast]
    ring
  · simp [firstDay]
  · obtain ⟨n, hn⟩ : ∃ n : ℕ, y = 1970 + n := ⟨(y - 1970).toNat, by omega⟩
    have hnow : (y - 1970).toNat = n := by omega
    have hnext : (y + 1 - 1970).toNat = n + 1 := by omega
    rw [firstDay, firstDay, if_pos (by omega), if_pos hle, hnow, hnext, sum_range_succ, ← hn]

theorem firstDay_strictMono : StrictMono firstDay := by
  refine strictMono_int_of_lt_succ fun y => ?_
  rw [firstDay_succ]
  have := yearLength_pos y
  omega

/-- The years that the leap rule adds a day to, counted by three divisions. -/
theorem firstDay_eq (y : ℤ) :
    firstDay y =
      365 * (y - 1970) + (y - 1969) / 4 - (y - 1901) / 100 + (y - 1601) / 400 := by
  have hstep : ∀ y : ℤ,
      365 * (y + 1 - 1970) + (y + 1 - 1969) / 4 - (y + 1 - 1901) / 100 + (y + 1 - 1601) / 400 =
        365 * (y - 1970) + (y - 1969) / 4 - (y - 1901) / 100 + (y - 1601) / 400
          + yearLength y := by
    intro y
    by_cases hleap : IsLeap y
    · obtain ⟨h4, h100⟩ := id hleap
      rw [yearLength, if_pos hleap]
      omega
    · rw [yearLength, if_neg hleap]
      unfold IsLeap at hleap
      omega
  induction y using Int.inductionOn' (b := 1970) with
  | zero => simp
  | succ y _ ih => rw [firstDay_succ, ih, hstep]
  | pred y _ ih =>
    have hday := firstDay_succ (y - 1)
    have hformula := hstep (y - 1)
    rw [sub_add_cancel] at hday hformula
    omega

/-- Four hundred years have 146097 days, and no year is far from its share of them. -/
theorem abs_firstDay_sub_le (y : ℤ) : |400 * firstDay y - 146097 * (y - 1970)| ≤ 800 := by
  rw [firstDay_eq, abs_le]
  omega

/-- The year of a day is the greatest one that starts no later. -/
theorem isGreatest_year {y day : ℤ} (hle : firstDay y ≤ day) (hlt : day < firstDay (y + 1)) :
    IsGreatest {y | firstDay y ≤ day} y := by
  refine ⟨hle, fun z hz => ?_⟩
  have : z < y + 1 := firstDay_strictMono.lt_iff_lt.mp (lt_of_le_of_lt hz hlt)
  omega

/-- Every day lies in a year. -/
theorem exists_year (day : ℤ) : ∃ y, firstDay y ≤ day ∧ day < firstDay (y + 1) := by
  have hnear := fun y => abs_le.mp (abs_firstDay_sub_le y)
  have hbound : ∀ y, firstDay y ≤ day → y ≤ 1972 + |day| := by
    intro y hy
    have := hnear y
    have := le_abs_self day
    have := abs_nonneg day
    omega
  have hstart : firstDay (1968 - |day|) ≤ day := by
    have := hnear (1968 - |day|)
    have := neg_abs_le day
    have := abs_nonneg day
    omega
  obtain ⟨y, hle, hmax⟩ := Int.exists_greatest_of_bdd ⟨_, hbound⟩ ⟨_, hstart⟩
  refine ⟨y, hle, not_le.mp fun hnext => ?_⟩
  have := hmax _ hnext
  omega

/-! ### Months -/

theorem monthLength_le (y : ℤ) (m : ℕ) : monthLength y m ≤ 31 := by
  unfold monthLength
  split
  · split <;> omega
  all_goals omega

theorem daysBefore_succ (y : ℤ) (m : ℕ) : daysBefore y (m + 1) = daysBefore y m + monthLength y m :=
  sum_range_succ _ _

/-- The leap day comes before every month from March on. -/
theorem daysBefore_eq (y : ℤ) {m : ℕ} (hm : m ≤ 12) :
    daysBefore y m = commonDaysBefore m + if 1 < m then leapDay y else 0 := by
  induction m with
  | zero => rfl
  | succ m ih =>
    have hlt : m < 12 := hm
    rw [daysBefore_succ, ih hlt.le, leapDay]
    clear ih hm
    interval_cases m <;> simp [commonDaysBefore, monthLength]
    · split <;> rfl
    all_goals ring

/-- The twelve months make up the year. -/
theorem daysBefore_twelve (y : ℤ) : daysBefore y 12 = yearLength y := by
  rw [daysBefore_eq y le_rfl, if_pos (by omega), yearLength, leapDay, commonDaysBefore]
  · split <;> rfl
  all_goals omega

/-- The year that is counted back from the next one. -/
theorem firstDay_succ_sub (y : ℤ) : firstDay (y + 1) - 365 = firstDay y + leapDay y := by
  rw [firstDay_succ, yearLength, leapDay]
  split <;> omega

end Gregorian
