import BoaLigero.Builtins.Date.Time

/-!
# Date Components Round Trip

A time value is taken apart into its date and its time of day, and put together again. The year,
month and date are those of the Gregorian calendar.

## Main results

* `makeDate_components` — the components of a time value make up the time value.
* `dateComponents_spec` — the components are those of the calendar, for every time value of the
  range of the language, and days are made from years and months of any size.
-/

namespace BoaLigero.Date

open Gregorian

/-- The time of day is made up of its components. -/
theorem makeTime_components (t : ℤ) :
    makeTime (some (hourFromTime t).toNat) (some (minFromTime t).toNat)
      (some (secFromTime t).toNat) (some (msFromTime t).toNat) =
        some ((t % 86400000 : ℤ) : ℚ) := by
  have hhour := hourFromTime_intCast t
  have hmin := minFromTime_intCast t
  have hsec := secFromTime_intCast t
  have hms := msFromTime_intCast t
  have h := makeTime_intCast (hourFromTime t).toNat (minFromTime t).toNat (secFromTime t).toNat
    (msFromTime t).toNat
  simp only [Int.cast_natCast] at h
  rw [h, hhour, hmin, hsec, hms]
  congr 2
  omega

/-- The day is made up of its year, month and date. -/
theorem makeDay_components {t y : ℤ} (h : InYear t y) :
    makeDay (some (yearFromTime t).toInt) (some (monthFromTime t).toNat)
      (some (dateFromTime t).toNat) = some ((t / 86400000 : ℤ) : ℚ) := by
  have hmonth := monthFromTime_spec h
  have hdate := dateFromTime_spec h
  have hmake := makeDay_intCast y (monthFromTime t).toNat (dateFromTime t).toNat
  have hlt := hmonth.month
  have hzero : ((monthFromTime t).toNat : ℤ) / 12 = 0 := by omega
  have hself : ((monthFromTime t).toNat % 12 : ℤ).toNat = (monthFromTime t).toNat := by omega
  simp only [Int.cast_natCast] at hmake
  rw [yearFromTime_spec h, hmake, hzero, hself, add_zero, dayNumber, hdate]
  congr 2
  omega

/-- The components of a time value make up the time value. -/
theorem makeDate_components {t y : ℤ} (h : InYear t y) :
    makeDate
      (makeDay (some (yearFromTime t).toInt) (some (monthFromTime t).toNat)
        (some (dateFromTime t).toNat))
      (makeTime (some (hourFromTime t).toNat) (some (minFromTime t).toNat)
        (some (secFromTime t).toNat) (some (msFromTime t).toNat)) = some (t : ℚ) := by
  rw [makeDay_components h, makeTime_components]
  simp only [makeDate, Option.bind_eq_bind, Option.bind_some, msPerDay_eq]
  have : t / 86400000 * 86400000 + t % 86400000 = t := by omega
  exact congrArg some (by exact_mod_cast this)

/-- The dates of a month go up to its length. -/
theorem dateFromTime_bounds {t y : ℤ} (h : InYear t y) :
    1 ≤ ((dateFromTime t).toNat : ℤ) ∧
      ((dateFromTime t).toNat : ℤ) ≤ monthLength y (monthFromTime t).toNat := by
  have hdate := dateFromTime_spec h
  obtain ⟨_, hle, hlt⟩ := monthFromTime_spec h
  rw [daysBefore_succ] at hlt
  omega

/-- **Time values and dates correspond**: within the range of the language the components put
together give the time value back, the year is the greatest one that does not start later, month
and date are those of the calendar, and the days of the week follow one another; and the day of
a date is that of the calendar for all years, months and dates. -/
theorem dateComponents_spec (t : ℤ) (ht : |t| ≤ 8640000000000000) (y m d : ℤ) :
    makeDate
      (makeDay (some (yearFromTime t).toInt) (some (monthFromTime t).toNat)
        (some (dateFromTime t).toNat))
      (makeTime (some (hourFromTime t).toNat) (some (minFromTime t).toNat)
        (some (secFromTime t).toNat) (some (msFromTime t).toNat)) = some (t : ℚ) ∧
    IsGreatest {y : ℤ | firstDay y * 86400000 ≤ t} (yearFromTime t).toInt ∧
    (monthFromTime t).toNat ≤ 11 ∧
    1 ≤ (dateFromTime t).toNat ∧
    ((dateFromTime t).toNat : ℤ) ≤
      monthLength (yearFromTime t).toInt (monthFromTime t).toNat ∧
    (weekDay ((t + 86400000 : ℤ) : ℚ)).toNat = ((weekDay t).toNat + 1) % 7 ∧
    makeDay (some y) (some m) (some d) =
      some ((dayNumber (y + m / 12) (m % 12).toNat d : ℤ) : ℚ) := by
  obtain ⟨year, h⟩ := exists_inYear ht
  have hyear := yearFromTime_spec h
  have hmonth := (monthFromTime_spec h).month
  obtain ⟨hfirst, hlast⟩ := dateFromTime_bounds h
  have hweek := weekDay_intCast t
  have hnext := weekDay_intCast (t + 86400000)
  have hstarts : {y : ℤ | firstDay y * 86400000 ≤ t} = {y | firstDay y ≤ t / 86400000} := by
    ext y
    exact (Int.le_ediv_iff_mul_le (by omega)).symm
  refine ⟨makeDate_components h, ?_, by omega, by omega, hyear ▸ hlast, by omega,
    makeDay_intCast y m d⟩
  rw [hstarts, hyear]
  exact isGreatest_year h.le h.lt

/-- The last millisecond before the epoch is in 1969, and the thirteenth month of 1969 begins at
the epoch. -/
theorem dateComponents_before_epoch :
    |(-1 : ℤ)| ≤ 8640000000000000 ∧
      IsGreatest {y : ℤ | firstDay y * 86400000 ≤ -1} 1969 ∧
      makeDay (some (1969 : ℤ)) (some (12 : ℤ)) (some (1 : ℤ)) = some ((0 : ℤ) : ℚ) := by
  have hbound : |(-1 : ℤ)| ≤ 8640000000000000 := by decide
  obtain ⟨-, hgreatest, -, -, -, -, hday⟩ := dateComponents_spec (-1) hbound 1969 12 1
  have hyear : (yearFromTime ((-1 : ℤ) : ℚ)).toInt = 1969 := by decide +kernel
  have hepoch : dayNumber (1969 + 12 / 12) (12 % 12 : ℤ).toNat 1 = 0 := by
    simp [dayNumber, daysBefore]
  rw [hyear] at hgreatest
  rw [hepoch] at hday
  exact ⟨hbound, hgreatest, hday⟩

end BoaLigero.Date
