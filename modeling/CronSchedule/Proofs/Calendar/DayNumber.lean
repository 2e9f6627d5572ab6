import CronSchedule.Calendar.DayCount
import Mathlib.Order.Monotone.Basic
import Mathlib.Tactic.IntervalCases

/-!
# The count of days orders the calendar

The number of a date grows strictly along the calendar, and every number belongs
to exactly one valid date. So dates can be compared, and steps between them
measured, by their numbers. The weekday by the three remainders is the one that
the count of days gives.
-/

namespace CronSchedule

set_option autoImplicit false

theorem days_before_month_mono (year : Int) : Monotone (daysBeforeMonth year) := by
  apply monotone_nat_of_le_succ
  intro month
  exact Nat.le_add_right _ _

theorem days_before_year_succ (year : Int) :
    daysBeforeYear (year + 1) = daysBeforeYear year + daysBeforeMonth year 13 := by
  by_cases leap : IsLeap year
  · have months : daysBeforeMonth year 13 = 366 := by
      simp [daysBeforeMonth, monthLength, leap]
    simp only [IsLeap] at leap
    simp only [daysBeforeYear, months]
    omega
  · have months : daysBeforeMonth year 13 = 365 := by
      simp [daysBeforeMonth, monthLength, leap]
    simp only [IsLeap] at leap
    simp only [daysBeforeYear, months]
    omega

theorem days_before_year_mono {first second : Int} (ordered : first ≤ second) :
    daysBeforeYear first ≤ daysBeforeYear second := by
  rcases Int.le_iff_eq_or_lt.mp ordered with rfl | before
  · exact Int.le_refl _
  · simp only [daysBeforeYear]
    omega

namespace Date

theorem lt_trichotomy (first second : Date) :
    first < second ∨ first = second ∨ second < first := by
  obtain ⟨firstYear, firstMonth, firstDay⟩ := first
  obtain ⟨secondYear, secondMonth, secondDay⟩ := second
  simp only [lt_iff, Date.mk.injEq]
  omega

theorem lt_irrefl (date : Date) : ¬date < date := by
  simp only [lt_iff]
  omega

theorem day_number_bounds {date : Date} (valid : date.Valid) :
    daysBeforeYear date.year ≤ date.dayNumber ∧
      date.dayNumber < daysBeforeYear date.year + daysBeforeMonth date.year (date.month + 1) ∧
      date.dayNumber < daysBeforeYear (date.year + 1) := by
  have inYear : daysBeforeMonth date.year (date.month + 1) ≤ daysBeforeMonth date.year 13 :=
    days_before_month_mono date.year (Nat.succ_le_succ (valid_month valid).2)
  have next := days_before_year_succ date.year
  have own : daysBeforeMonth date.year (date.month + 1) =
      daysBeforeMonth date.year date.month + monthLength date.year date.month := rfl
  obtain ⟨lower, upper⟩ := valid
  simp only [dayNumber]
  omega

theorem day_number_lt {first second : Date} (firstValid : first.Valid)
    (secondValid : second.Valid) (before : first < second) :
    first.dayNumber < second.dayNumber := by
  have firstBounds := day_number_bounds firstValid
  have secondBounds := day_number_bounds secondValid
  rcases before with year | ⟨year, month | ⟨month, day⟩⟩
  · have years := days_before_year_mono (show first.year + 1 ≤ second.year from year)
    omega
  · have months :=
      days_before_month_mono second.year (show first.month + 1 ≤ second.month from month)
    have dayPositive := secondValid.1
    have number : second.dayNumber = daysBeforeYear second.year +
        daysBeforeMonth second.year second.month + second.day - 1 := rfl
    rw [year] at firstBounds
    omega
  · simp only [dayNumber, year, month]
    omega

theorem eq_of_day_number_eq {first second : Date} (firstValid : first.Valid)
    (secondValid : second.Valid) (same : first.dayNumber = second.dayNumber) :
    first = second := by
  rcases lt_trichotomy first second with before | equal | after
  · have less := day_number_lt firstValid secondValid before
    omega
  · exact equal
  · have less := day_number_lt secondValid firstValid after
    omega

theorem month_and_day_spec (year : Int) (count start dayOfYear : Nat) (rest : start + count = 13)
    (inside : daysBeforeMonth year start + dayOfYear < daysBeforeMonth year 13) :
    let found := monthAndDay year (List.range' start count) dayOfYear
    (1 ≤ found.2 ∧ found.2 ≤ monthLength year found.1) ∧
      daysBeforeMonth year found.1 + found.2 = daysBeforeMonth year start + dayOfYear + 1 := by
  induction count generalizing start dayOfYear with
  | zero =>
      obtain rfl : start = 13 := rest
      omega
  | succ count induction =>
      rw [List.range'_succ]
      simp only [monthAndDay]
      split
      case isTrue here => exact ⟨⟨Nat.le_add_left 1 dayOfYear, here⟩, rfl⟩
      case isFalse later =>
          have moved : daysBeforeMonth year (start + 1) + (dayOfYear - monthLength year start) =
              daysBeforeMonth year start + dayOfYear := by
            simp only [daysBeforeMonth]
            omega
          have spec := induction (start + 1) (dayOfYear - monthLength year start) (by omega)
            (by omega)
          rwa [moved] at spec

theorem of_day_number_spec (number : Int) :
    (ofDayNumber number).Valid ∧ (ofDayNumber number).dayNumber = number := by
  obtain ⟨lower, upper⟩ := year_of_day_bounds number
  rw [days_before_year_succ] at upper
  have january : daysBeforeMonth (yearOfDay number) 1 = 0 := by
    simp [daysBeforeMonth, monthLength]
  have spec := month_and_day_spec (yearOfDay number) 12 1
    (number - daysBeforeYear (yearOfDay number)).toNat rfl (by omega)
  simp only [january] at spec
  refine ⟨spec.1, ?_⟩
  have total := spec.2
  simp only [ofDayNumber, dayNumber]
  omega

theorem valid_of_day_number (number : Int) : (ofDayNumber number).Valid :=
  (of_day_number_spec number).1

theorem day_number_of_day_number (number : Int) : (ofDayNumber number).dayNumber = number :=
  (of_day_number_spec number).2

/-- The tables of shifts hold the days before each month, whole weeks left out. -/
theorem month_shift_eq (year : Int) {month : Nat} (inYear : 1 ≤ month ∧ month ≤ 12) :
    (if IsLeap year then leapShift else commonShift).getD (month - 1) 0 =
      (daysBeforeMonth year month : Int) % 7 := by
  obtain ⟨low, high⟩ := inYear
  by_cases leap : IsLeap year
  · interval_cases month <;> simp [leap, leapShift, daysBeforeMonth, monthLength]
  · interval_cases month <;> simp [leap, commonShift, daysBeforeMonth, monthLength]

/-- The three remainders count the weekday from 1 January of year 1, a Monday. -/
theorem weekday_number_eq {date : Date} (valid : date.Valid) :
    date.weekdayNumber = (date.dayNumber + 1) % 7 := by
  have shift := month_shift_eq date.year (valid_month valid)
  simp only [weekdayNumber, dayNumber, daysBeforeYear, shift]
  omega

end Date

end CronSchedule
