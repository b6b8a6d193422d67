import BoaLigero.Util.ExactDouble
import BoaLigero.Util.Gregorian

/-!
# Time Values of the Date Builtin

The functions that take a time value apart (`year_from_time`, `month_from_time`,
`date_from_time`, `week_day` and the components of the time of day) and those that put one
together (`make_time`, `make_day`, `make_date`). Doubles are read exactly; a double that may be
infinite or not a number is an `Option`, with `none` for both. Machine integers wrap.

## Main results

* `yearFromTime_spec` — the corrected estimate is the year whose days include the time value.
* `monthOfDay_spec`, `dateOfDay_spec` — the two tables take a day of the year apart.
* `makeDay_intCast` — the day number that is made from integers of any size.
-/

namespace BoaLigero.Date

open ExactDouble Gregorian

/-! ### The source -/

/-- `HOURS_PER_DAY`. -/
def hoursPerDay : ℚ := 24

/-- `MINUTES_PER_HOUR`. -/
def minutesPerHour : ℚ := 60

/-- `SECONDS_PER_MINUTE`. -/
def secondsPerMinute : ℚ := 60

/-- `MS_PER_SECOND`. -/
def msPerSecond : ℚ := 1000

/-- `MS_PER_MINUTE`. -/
def msPerMinute : ℚ := msPerSecond * secondsPerMinute

/-- `MS_PER_HOUR`. -/
def msPerHour : ℚ := msPerMinute * minutesPerHour

/-- `MS_PER_DAY`. -/
def msPerDay : ℚ := msPerHour * hoursPerDay

/-- `day`: the number of the day of a time, which is rounded down. -/
def day (t : ℚ) : ℚ := floor (t / msPerDay)

/-- `days_in_year`: the number of days of a year, by the rules of the Gregorian calendar. -/
def daysInYear (y : ℚ) : UInt16 :=
  if remEuclid y 400 = 0 then 366
  else if remEuclid y 100 = 0 then 365
  else if remEuclid y 4 = 0 then 366
  else 365

/-- `day_from_year`: the number of the first day of a year. -/
def dayFromYear (y : ℚ) : ℚ :=
  let numYears1 := y - 1970
  let numYears4 := floor ((y - 1969) / 4)
  let numYears100 := floor ((y - 1901) / 100)
  let numYears400 := floor ((y - 1601) / 400)
  365 * numYears1 + numYears4 - numYears100 + numYears400

/-- `time_from_year`: the time at which a year begins. -/
def timeFromYear (y : ℚ) : ℚ := msPerDay * dayFromYear y

/-- `MS_PER_AVERAGE_YEAR`, from which the year of a time is estimated. -/
def msPerAverageYear : ℚ := 12 * 30.436875 * msPerDay

/-- The estimate is corrected in one direction only. -/
def yearFromTime (t : ℚ) : Int32 :=
  let year := toI32 (floor ((t + msPerAverageYear / 2) / msPerAverageYear)) + 1970
  if timeFromYear year.toInt > t then year - 1 else year

/-- `day_within_year`: the days between the beginning of its year and a time. -/
def dayWithinYear (t : ℚ) : UInt16 := toU16 (day t - dayFromYear (yearFromTime t).toInt)

/-- `in_leap_year`: one for a time in a leap year. -/
def inLeapYear (t : ℚ) : UInt16 := if daysInYear (yearFromTime t).toInt = 366 then 1 else 0

/-- The table of `month_from_time`. -/
def monthOfDay (inLeapYear t : UInt16) : UInt8 :=
  if t < 31 then 0
  else if t < 59 + inLeapYear then 1
  else if t < 90 + inLeapYear then 2
  else if t < 120 + inLeapYear then 3
  else if t < 151 + inLeapYear then 4
  else if t < 181 + inLeapYear then 5
  else if t < 212 + inLeapYear then 6
  else if t < 243 + inLeapYear then 7
  else if t < 273 + inLeapYear then 8
  else if t < 304 + inLeapYear then 9
  else if t < 334 + inLeapYear then 10
  else 11

/-- `month_from_time`: the month of a time, the first one being zero. -/
def monthFromTime (t : ℚ) : UInt8 := monthOfDay (inLeapYear t) (dayWithinYear t)

/-- The table of `date_from_time`. -/
def dateOfDay (inLeapYear dayWithinYear : UInt16) (month : UInt8) : UInt16 :=
  match month with
  | 0 => dayWithinYear + 1
  | 1 => dayWithinYear - 30
  | 2 => dayWithinYear - 58 - inLeapYear
  | 3 => dayWithinYear - 89 - inLeapYear
  | 4 => dayWithinYear - 119 - inLeapYear
  | 5 => dayWithinYear - 150 - inLeapYear
  | 6 => dayWithinYear - 180 - inLeapYear
  | 7 => dayWithinYear - 211 - inLeapYear
  | 8 => dayWithinYear - 242 - inLeapYear
  | 9 => dayWithinYear - 272 - inLeapYear
  | 10 => dayWithinYear - 303 - inLeapYear
  | _ => dayWithinYear - 333 - inLeapYear

/-- `date_from_time`: the day of the month of a time, the first one being one. -/
def dateFromTime (t : ℚ) : UInt8 :=
  (dateOfDay (inLeapYear t) (dayWithinYear t) (monthFromTime t)).toUInt8

/-- `week_day`: the day of the week, where the epoch was a Thursday. -/
def weekDay (t : ℚ) : UInt8 := toU8 (remEuclid (day t + 4) 7)

/-- `hour_from_time`: the hour of the day of a time. -/
def hourFromTime (t : ℚ) : UInt8 := toU8 (remEuclid (floor (t / msPerHour)) hoursPerDay)

/-- `min_from_time`: the minute of the hour of a time. -/
def minFromTime (t : ℚ) : UInt8 := toU8 (remEuclid (floor (t / msPerMinute)) minutesPerHour)

/-- `sec_from_time`: the second of the minute of a time. -/
def secFromTime (t : ℚ) : UInt8 := toU8 (remEuclid (floor (t / msPerSecond)) secondsPerMinute)

/-- `ms_from_time`: the millisecond of the second of a time. -/
def msFromTime (t : ℚ) : UInt16 := toU16 (remEuclid t msPerSecond)

/-- `make_time`: the milliseconds of hours, minutes, seconds and milliseconds. -/
def makeTime (hour min sec ms : Option ℚ) : Option ℚ := do
  let h := truncated (← hour)
  let m := truncated (← min)
  let s := truncated (← sec)
  let milli := truncated (← ms)
  return ((h * msPerHour + m * msPerMinute) + s * msPerSecond) + milli

/-- The table of `make_day`; `none` for the arm marked unreachable. -/
def daysWithinYearToEndOfMonth (mn : UInt8) : Option ℚ :=
  match mn with
  | 0 => some 0
  | 1 => some 31
  | 2 => some 59
  | 3 => some 90
  | 4 => some 120
  | 5 => some 151
  | 6 => some 181
  | 7 => some 212
  | 8 => some 243
  | 9 => some 273
  | 10 => some 304
  | 11 => some 334
  | 12 => some 365
  | _ => none

/-- `make_day`: the number of the day with a year, a month and a date, which may lie outside their
ranges. -/
def makeDay (year month date : Option ℚ) : Option ℚ := do
  let y := truncated (← year)
  let m := truncated (← month)
  let dt := truncated (← date)
  let ym := y + floor (m / 12)
  let mn := toU8 (remEuclid m 12)
  -- From March on the days are counted back from the next year, which knows the leap day.
  let rest : ℚ := if mn > 1 then 1 else 0
  let t := (dayFromYear (ym + rest) - 365 * rest + (← daysWithinYearToEndOfMonth mn)) * msPerDay
  return day t + dt - 1

/-- `make_date`: the time of a day and a time within it. -/
def makeDate (day time : Option ℚ) : Option ℚ := do
  return (← day) * msPerDay + (← time)

/-! ### Days and years -/

/-- A day has 86400000 milliseconds. -/
@[simp]
theorem msPerDay_eq : msPerDay = 86400000 := by
  norm_num [msPerDay, msPerHour, msPerMinute, msPerSecond, hoursPerDay, minutesPerHour,
    secondsPerMinute]

/-- An average year has 31556952000 milliseconds, an integer. -/
@[simp]
theorem msPerAverageYear_eq : msPerAverageYear = 31556952000 := by
  norm_num [msPerAverageYear]

/-- The day of an integral time is the integral quotient, rounded down. -/
theorem day_intCast (t : ℤ) : day t = ((t / 86400000 : ℤ) : ℚ) := by
  simpa [day] using floor_div_natCast t 86400000

/-- The first day of a year is the one that counts the leap years before it. -/
theorem dayFromYear_intCast (y : ℤ) : dayFromYear y = (firstDay y : ℤ) := by
  have h4 : floor (((y : ℚ) - 1969) / 4) = ((y - 1969) / 4 : ℤ) := by
    simpa using floor_div_natCast (y - 1969) 4
  have h100 : floor (((y : ℚ) - 1901) / 100) = ((y - 1901) / 100 : ℤ) := by
    simpa using floor_div_natCast (y - 1901) 100
  have h400 : floor (((y : ℚ) - 1601) / 400) = ((y - 1601) / 400 : ℤ) := by
    simpa using floor_div_natCast (y - 1601) 400
  rw [firstDay_eq, dayFromYear, h4, h100, h400]
  push_cast
  ring

/-- A year has a day more exactly if it is a leap year of the calendar. -/
theorem daysInYear_intCast (y : ℤ) : daysInYear y = if IsLeap y then 366 else 365 := by
  have h400 : remEuclid y 400 = 0 ↔ y % 400 = 0 := by
    rw [show (400 : ℚ) = (400 : ℕ) from rfl, remEuclid_natCast y (by omega), Int.cast_eq_zero]
    rfl
  have h100 : remEuclid y 100 = 0 ↔ y % 100 = 0 := by
    rw [show (100 : ℚ) = (100 : ℕ) from rfl, remEuclid_natCast y (by omega), Int.cast_eq_zero]
    rfl
  have h4 : remEuclid y 4 = 0 ↔ y % 4 = 0 := by
    rw [show (4 : ℚ) = (4 : ℕ) from rfl, remEuclid_natCast y (by omega), Int.cast_eq_zero]
    rfl
  simp only [daysInYear, h400, h100, h4, IsLeap]
  grind

/-! ### The year of a time value -/

/-- A time value of the range the language allows, in the days of a year. -/
structure InYear (t y : ℤ) : Prop where
  bound : |t| ≤ 8640000000000000
  le : firstDay y ≤ t / 86400000
  lt : t / 86400000 < firstDay (y + 1)

/-- Every day is a day of some year. -/
theorem exists_inYear {t : ℤ} (ht : |t| ≤ 8640000000000000) : ∃ y, InYear t y := by
  obtain ⟨y, hle, hlt⟩ := exists_year (t / 86400000)
  exact ⟨y, ht, hle, hlt⟩

/-- The estimate is the year itself or the one after it. -/
theorem InYear.estimate {t y : ℤ} (h : InYear t y) :
    (t + 15778476000) / 31556952000 + 1970 = y ∨
      (t + 15778476000) / 31556952000 + 1970 = y + 1 := by
  have hthis := abs_le.mp (abs_firstDay_sub_le y)
  have hnext := abs_le.mp (abs_firstDay_sub_le (y + 1))
  obtain ⟨_, hle, hlt⟩ := h
  omega

/-- The years of the range are far from the ends of `i32`. -/
theorem InYear.year_bound {t y : ℤ} (h : InYear t y) : |y| ≤ 300000 := by
  have hthis := abs_le.mp (abs_firstDay_sub_le y)
  have hnext := abs_le.mp (abs_firstDay_sub_le (y + 1))
  have hbound := abs_le.mp h.bound
  obtain ⟨_, hle, hlt⟩ := h
  rw [abs_le]
  omega

/-- An integral year begins with its first day. -/
theorem timeFromYear_intCast (y : ℤ) : timeFromYear y = ((86400000 * firstDay y : ℤ) : ℚ) := by
  rw [timeFromYear, dayFromYear_intCast, msPerDay_eq]
  push_cast
  rfl

/-- The corrected estimate is the year whose days include the time value. -/
theorem yearFromTime_spec {t y : ℤ} (h : InYear t y) : (yearFromTime t).toInt = y := by
  have hfloor : floor (((t : ℚ) + msPerAverageYear / 2) / msPerAverageYear) =
      (((t + 15778476000) / 31556952000 : ℤ) : ℚ) := by
    have h := floor_div_natCast (t + 15778476000) 31556952000
    push_cast at h ⊢
    rw [msPerAverageYear_eq, ← h]
    norm_num
  have hbound := abs_le.mp h.year_bound
  have hestimate := h.estimate
  have h1970 : (1970 : Int32).toInt = 1970 := rfl
  have hone : (1 : Int32).toInt = 1 := rfl
  unfold yearFromTime
  rw [hfloor]
  extract_lets year
  have hcast : (toI32 (((t + 15778476000) / 31556952000 : ℤ) : ℚ)).toInt =
      (t + 15778476000) / 31556952000 := toI32_intCast (by omega) (by omega)
  have hyear : year.toInt = (t + 15778476000) / 31556952000 + 1970 := by
    rw [toInt_add_of_range _ _ (by omega) (by omega), hcast, h1970]
  have hlate : timeFromYear year.toInt > t ↔ t < 86400000 * firstDay year.toInt := by
    rw [timeFromYear_intCast, gt_iff_lt, Int.cast_lt]
  simp only [hlate]
  obtain ⟨_, hle, hlt⟩ := h
  cases hestimate with
  | inl hsame =>
    rw [hsame] at hyear
    rw [if_neg (by rw [hyear]; omega), hyear]
  | inr hnext =>
    rw [hnext] at hyear
    rw [if_pos (by rw [hyear]; omega), toInt_sub_of_range _ _ (by omega) (by omega), hyear, hone]
    omega

/-! ### The month and the date of a time value -/

/-- Whether a time is in a leap year depends on its year only. -/
theorem inLeapYear_spec {t y : ℤ} (h : InYear t y) : ((inLeapYear t).toNat : ℤ) = leapDay y := by
  rw [inLeapYear, yearFromTime_spec h, daysInYear_intCast, leapDay]
  split <;> rfl

/-- The day within the year is counted from the first day of the year that holds the time. -/
theorem dayWithinYear_spec {t y : ℤ} (h : InYear t y) :
    ((dayWithinYear t).toNat : ℤ) = t / 86400000 - firstDay y := by
  have hlength : yearLength y ≤ 366 := by
    unfold yearLength
    split <;> omega
  have hnext := firstDay_succ y
  obtain ⟨_, hle, hlt⟩ := id h
  rw [dayWithinYear, yearFromTime_spec h, day_intCast, dayFromYear_intCast, ← Int.cast_sub,
    toU16_intCast (by omega) (by omega)]

/-- A day of the year, by its month and date. -/
structure InMonth (y : ℤ) (d : ℤ) (m : ℕ) : Prop where
  month : m < 12
  le : daysBefore y m ≤ d
  lt : d < daysBefore y (m + 1)

/-- One step of the table of months: below its bound the month is found. -/
theorem InMonth.ladder {y : ℤ} {d bound : UInt16} {m rest : UInt8} (hm : m.toNat < 12)
    (hle : daysBefore y m.toNat ≤ d.toNat)
    (hbound : (bound.toNat : ℤ) = daysBefore y (m.toNat + 1))
    (hrest : daysBefore y (m.toNat + 1) ≤ d.toNat → InMonth y d.toNat rest.toNat) :
    InMonth y d.toNat (if d < bound then m else rest).toNat := by
  split
  case isTrue hlt =>
    rw [UInt16.lt_iff_toNat_lt] at hlt
    exact ⟨hm, hle, by omega⟩
  case isFalse hge =>
    rw [UInt16.lt_iff_toNat_lt] at hge
    exact hrest (by omega)

/-- A bound of the tables that moves with the leap day. -/
theorem toNat_add_leap {y : ℤ} {leap : UInt16} (hleap : (leap.toNat : ℤ) = leapDay y)
    (n : UInt16) {m : ℕ} (hn : n.toNat ≤ 334) (hm : 1 < m ∧ m ≤ 12)
    (hday : commonDaysBefore m = n.toNat) :
    ((n + leap).toNat : ℤ) = daysBefore y m := by
  have hone : leapDay y ≤ 1 := by
    unfold leapDay
    split <;> omega
  rw [daysBefore_eq y hm.2, if_pos hm.1, UInt16.toNat_add]
  omega

/-- The table of `month_from_time` finds the month of every day of the year. -/
theorem monthOfDay_spec {y : ℤ} {leap d : UInt16} (hleap : (leap.toNat : ℤ) = leapDay y)
    (hd : (d.toNat : ℤ) < yearLength y) : InMonth y d.toNat (monthOfDay leap d).toNat := by
  have hbound := toNat_add_leap hleap
  have hlast : (d.toNat : ℤ) < daysBefore y 12 := by rwa [daysBefore_twelve]
  rw [monthOfDay]
  refine .ladder (by decide) (by simp [daysBefore]) (by simp [daysBefore, monthLength]) fun h => ?_
  refine .ladder (by decide) h (hbound 59 (by decide) (by decide) rfl) fun h => ?_
  refine .ladder (by decide) h (hbound 90 (by decide) (by decide) rfl) fun h => ?_
  refine .ladder (by decide) h (hbound 120 (by decide) (by decide) rfl) fun h => ?_
  refine .ladder (by decide) h (hbound 151 (by decide) (by decide) rfl) fun h => ?_
  refine .ladder (by decide) h (hbound 181 (by decide) (by decide) rfl) fun h => ?_
  refine .ladder (by decide) h (hbound 212 (by decide) (by decide) rfl) fun h => ?_
  refine .ladder (by decide) h (hbound 243 (by decide) (by decide) rfl) fun h => ?_
  refine .ladder (by decide) h (hbound 273 (by decide) (by decide) rfl) fun h => ?_
  refine .ladder (by decide) h (hbound 304 (by decide) (by decide) rfl) fun h => ?_
  refine .ladder (by decide) h (hbound 334 (by decide) (by decide) rfl) fun h => ?_
  exact ⟨by decide, h, hlast⟩

/-- An entry of the table of dates. -/
theorem toNat_sub_leap {y : ℤ} {leap d : UInt16} (hleap : (leap.toNat : ℤ) = leapDay y)
    (n : UInt16) {m : ℕ} (hm : 1 < m ∧ m ≤ 12) (hday : commonDaysBefore m = n.toNat + 1)
    (hle : daysBefore y m ≤ d.toNat) :
    ((d - n - leap).toNat : ℤ) = d.toNat - daysBefore y m + 1 := by
  rw [daysBefore_eq y hm.2, if_pos hm.1] at hle ⊢
  have hfirst : (d - n).toNat = d.toNat - n.toNat :=
    UInt16.toNat_sub_of_le _ _ (UInt16.le_iff_toNat_le.mpr (by omega))
  rw [UInt16.toNat_sub_of_le _ _ (UInt16.le_iff_toNat_le.mpr (by omega)), hfirst]
  omega

/-- The table of `date_from_time` counts the days of the month from one. -/
theorem dateOfDay_spec {y : ℤ} {leap d : UInt16} {m : UInt8}
    (hleap : (leap.toNat : ℤ) = leapDay y) (h : InMonth y d.toNat m.toNat) :
    ((dateOfDay leap d m).toNat : ℤ) = d.toNat - daysBefore y m.toNat + 1 := by
  obtain ⟨hm, hle, hlt⟩ := h
  have hsub (n : UInt16) {m : ℕ} := toNat_sub_leap (d := d) hleap n (m := m)
  unfold dateOfDay
  split
  · have h31 : daysBefore y (0 + 1) = 31 := rfl
    have h0 : daysBefore y 0 = 0 := rfl
    simp only [UInt8.reduceToNat] at hle hlt ⊢
    rw [h31] at hlt
    rw [h0, UInt16.toNat_add]
    simp only [UInt16.reduceToNat]
    omega
  · have h31 : daysBefore y 1 = 31 := rfl
    simp only [UInt8.reduceToNat] at hle hlt ⊢
    rw [h31] at hle ⊢
    have hfirst : (d - 30).toNat = d.toNat - 30 :=
      UInt16.toNat_sub_of_le _ _ (UInt16.le_iff_toNat_le.mpr (by simpa using by omega))
    rw [hfirst]
    omega
  · exact hsub 58 (by decide) rfl hle
  · exact hsub 89 (by decide) rfl hle
  · exact hsub 119 (by decide) rfl hle
  · exact hsub 150 (by decide) rfl hle
  · exact hsub 180 (by decide) rfl hle
  · exact hsub 211 (by decide) rfl hle
  · exact hsub 242 (by decide) rfl hle
  · exact hsub 272 (by decide) rfl hle
  · exact hsub 303 (by decide) rfl hle
  case h_12 h0 h1 h2 h3 h4 h5 h6 h7 h8 h9 h10 =>
    have h11 : m.toNat = 11 := by
      simp [← UInt8.toNat_inj] at h0 h1 h2 h3 h4 h5 h6 h7 h8 h9 h10
      omega
    rw [h11] at hle ⊢
    exact hsub 333 (by decide) rfl hle

/-- The month of a time is the one that holds the day within the year. -/
theorem monthFromTime_spec {t y : ℤ} (h : InYear t y) :
    InMonth y (t / 86400000 - firstDay y) (monthFromTime t).toNat := by
  have hday := dayWithinYear_spec h
  have hnext := firstDay_succ y
  have hlt := h.lt
  rw [← hday]
  exact monthOfDay_spec (inLeapYear_spec h) (by omega)

/-- No month has more than 31 days. -/
theorem InMonth.date_lt {y d : ℤ} {m : ℕ} (h : InMonth y d m) : d - daysBefore y m < 31 := by
  have hsucc := daysBefore_succ y m
  have hmonth := monthLength_le y m
  have := h.lt
  omega

/-- The date of a time is the day within the month that holds it, counted from one. -/
theorem dateFromTime_spec {t y : ℤ} (h : InYear t y) :
    ((dateFromTime t).toNat : ℤ) =
      t / 86400000 - firstDay y - daysBefore y (monthFromTime t).toNat + 1 := by
  have hday := dayWithinYear_spec h
  have hmonth := monthFromTime_spec h
  have hsmall := hmonth.date_lt
  have hle := hmonth.le
  have hdate := dateOfDay_spec (d := dayWithinYear t) (inLeapYear_spec h) (hday ▸ hmonth)
  rw [hday] at hdate
  rw [dateFromTime, UInt16.toNat_toUInt8, Int.natCast_emod, hdate]
  omega

/-! ### Days of the week and times of the day -/

/-- A component of a time value is a remainder of an integer division. -/
theorem toU8_remEuclid (n : ℤ) (k : ℕ) (hk : 0 < k) (hlt : k ≤ 256) :
    ((toU8 (remEuclid n k)).toNat : ℤ) = n % k := by
  have hnonneg := Int.emod_nonneg n (Int.natCast_pos.mpr hk).ne'
  have hrem := Int.emod_lt_of_pos n (Int.natCast_pos.mpr hk)
  rw [remEuclid_natCast n hk, toU8_intCast hnonneg (by omega)]

/-- The day of the week goes round every seven days, also before the epoch. -/
theorem weekDay_intCast (t : ℤ) : ((weekDay t).toNat : ℤ) = (t / 86400000 + 4) % 7 := by
  have := toU8_remEuclid (t / 86400000 + 4) 7 (by omega) (by omega)
  rw [weekDay, day_intCast]
  exact_mod_cast this

/-- The hour is that of the day which holds the time, also before the epoch. -/
theorem hourFromTime_intCast (t : ℤ) : ((hourFromTime t).toNat : ℤ) = t / 3600000 % 24 := by
  have hfloor : floor ((t : ℚ) / msPerHour) = ((t / 3600000 : ℤ) : ℚ) := by
    have := floor_div_natCast t 3600000
    norm_num [msPerHour, msPerMinute, msPerSecond, minutesPerHour, secondsPerMinute]
    exact_mod_cast this
  rw [hourFromTime, hfloor]
  exact toU8_remEuclid _ 24 (by omega) (by omega)

/-- The minute is that of the hour which holds the time, also before the epoch. -/
theorem minFromTime_intCast (t : ℤ) : ((minFromTime t).toNat : ℤ) = t / 60000 % 60 := by
  have hfloor : floor ((t : ℚ) / msPerMinute) = ((t / 60000 : ℤ) : ℚ) := by
    have := floor_div_natCast t 60000
    norm_num [msPerMinute, msPerSecond, secondsPerMinute]
    exact_mod_cast this
  rw [minFromTime, hfloor]
  exact toU8_remEuclid _ 60 (by omega) (by omega)

/-- The second is that of the minute which holds the time, also before the epoch. -/
theorem secFromTime_intCast (t : ℤ) : ((secFromTime t).toNat : ℤ) = t / 1000 % 60 := by
  rw [secFromTime, show floor ((t : ℚ) / msPerSecond) = ((t / 1000 : ℤ) : ℚ) from
    floor_div_natCast t 1000]
  exact toU8_remEuclid _ 60 (by omega) (by omega)

/-- The millisecond is that of the second which holds the time, also before the epoch. -/
theorem msFromTime_intCast (t : ℤ) : ((msFromTime t).toNat : ℤ) = t % 1000 := by
  rw [msFromTime, show remEuclid (t : ℚ) msPerSecond = ((t % 1000 : ℤ) : ℚ) from
    remEuclid_natCast t (k := 1000) (by omega), toU16_intCast (by omega) (by omega)]

/-- The milliseconds of integral parts are their sum, and are not rounded. -/
theorem makeTime_intCast (h m s milli : ℤ) :
    makeTime (some h) (some m) (some s) (some milli) =
      some ((h * 3600000 + m * 60000 + s * 1000 + milli : ℤ) : ℚ) := by
  simp only [makeTime, Option.bind_eq_bind, Option.bind_some, truncated_intCast]
  norm_num [msPerHour, msPerMinute, msPerSecond, minutesPerHour, secondsPerMinute]

/-! ### The day of a date -/

/-- The table of `make_day` holds the days before the month in a common year. -/
theorem daysWithinYearToEndOfMonth_eq {mn : UInt8} (hmn : mn.toNat < 12) :
    daysWithinYearToEndOfMonth mn = some (commonDaysBefore mn.toNat : ℚ) := by
  unfold daysWithinYearToEndOfMonth
  split <;> first | rfl | simp [← UInt8.toNat_inj] at *; omega

/-- The day of a whole number of days is that number. -/
theorem day_mul_msPerDay (n : ℤ) : day ((n : ℚ) * msPerDay) = n := by
  have h := day_intCast (n * 86400000)
  rw [Int.mul_ediv_cancel _ (by omega)] at h
  rw [msPerDay_eq]
  exact_mod_cast h

/-- The day number that is made from integers of any size. -/
theorem makeDay_intCast (y m d : ℤ) :
    makeDay (some y) (some m) (some d) =
      some ((dayNumber (y + m / 12) (m % 12).toNat d : ℤ) : ℚ) := by
  have hyears : floor ((m : ℚ) / 12) = ((m / 12 : ℤ) : ℚ) := floor_div_natCast m 12
  have hmonth : ((toU8 (remEuclid m 12)).toNat : ℤ) = m % 12 :=
    toU8_remEuclid m 12 (by omega) (by omega)
  simp only [makeDay, Option.bind_eq_bind, Option.bind_some, truncated_intCast, hyears]
  generalize toU8 (remEuclid m 12) = mn at hmonth
  have hmn : mn.toNat < 12 := by omega
  have htoNat : (m % 12).toNat = mn.toNat := by omega
  rw [daysWithinYearToEndOfMonth_eq hmn, htoNat, dayNumber, daysBefore_eq _ hmn.le]
  simp only [Option.bind_some, gt_iff_lt, UInt8.lt_iff_toNat_lt, UInt8.reduceToNat,
    ← Int.cast_add]
  generalize y + m / 12 = ym
  -- From March on the next year's first day brings the leap day along.
  have hfirst : dayFromYear (ym + if 1 < mn.toNat then 1 else 0) -
      365 * (if 1 < mn.toNat then 1 else 0) =
        ((firstDay ym + if 1 < mn.toNat then leapDay ym else 0 : ℤ) : ℚ) := by
    split
    case isTrue =>
      rw [← firstDay_succ_sub, ← Int.cast_one, ← Int.cast_add, dayFromYear_intCast]
      push_cast
      ring
    case isFalse =>
      rw [add_zero, dayFromYear_intCast]
      push_cast
      ring
  rw [hfirst, ← Int.cast_add]
  rw [day_mul_msPerDay]
  push_cast
  simp only [pure, Option.some.injEq]
  ring

end BoaLigero.Date
