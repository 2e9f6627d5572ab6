import CronSchedule.Calendar.Date

/-!
# Linear count of days

Every date has a number: the days since 1 January of year 1, negative before it.
The number of a date adds up the days of the completed years, of the completed
months and of its own month. `Date.ofDayNumber` reads the date back: the year is
guessed from the mean length of a Gregorian year, which is off by at most one,
and the month is found by walking through the months of that year.
-/

namespace CronSchedule

set_option autoImplicit false

/-- Days from 1 January of year 1 to 1 January of the given year. -/
def daysBeforeYear (year : Int) : Int :=
  365 * (year - 1) + (year - 1) / 4 - (year - 1) / 100 + (year - 1) / 400

/-- Days of the months of the year that come before the given one. There is no
month before the first, and the month numbered zero has no days. -/
def daysBeforeMonth (year : Int) : Nat → Nat
  | 0 => 0
  | month + 1 => daysBeforeMonth year month + monthLength year month

/-- The year that holds a day. 146097 days are 400 years. -/
def yearOfDay (number : Int) : Int :=
  let guess := number * 400 / 146097 + 1
  if number < daysBeforeYear guess then guess - 1
  else if daysBeforeYear (guess + 1) ≤ number then guess + 1
  else guess

/-- Month and day of the month of a day of the year, counted from zero, when the
year is known to reach at least the given months. -/
def monthAndDay (year : Int) : List Nat → Nat → Nat × Nat
  | [], dayOfYear => (12, dayOfYear + 1)
  | month :: later, dayOfYear =>
      if dayOfYear < monthLength year month then (month, dayOfYear + 1)
      else monthAndDay year later (dayOfYear - monthLength year month)

namespace Date

def dayNumber (date : Date) : Int :=
  daysBeforeYear date.year + daysBeforeMonth date.year date.month + date.day - 1

def ofDayNumber (number : Int) : Date :=
  let year := yearOfDay number
  let (month, day) := monthAndDay year (List.range' 1 12) (number - daysBeforeYear year).toNat
  ⟨year, month, day⟩

end Date

theorem year_of_day_bounds (number : Int) :
    daysBeforeYear (yearOfDay number) ≤ number ∧
      number < daysBeforeYear (yearOfDay number + 1) := by
  simp only [yearOfDay]
  split
  case isTrue early =>
      simp only [daysBeforeYear] at early ⊢
      omega
  case isFalse notEarly =>
      split
      case isTrue late =>
          simp only [daysBeforeYear] at late ⊢
          omega
      case isFalse notLate =>
          simp only [daysBeforeYear] at notEarly notLate ⊢
          omega

end CronSchedule
