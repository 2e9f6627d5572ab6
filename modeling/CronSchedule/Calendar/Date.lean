import CronSchedule.Fault

/-!
# Gregorian dates

Dates of the proleptic Gregorian calendar, with year zero and negative years. A
`Date` is any triple of numbers; `Date.Valid` singles out those that a calendar
shows. Steps and weekdays are refused with a `Fault` where no answer exists, so
a caller that keeps to valid dates inside the span of years meets none.
-/

namespace CronSchedule

set_option autoImplicit false

def earliestYear : Int := -2147483648

def latestYear : Int := 2147483647

/-- Every fourth year is leap, except the centuries that 400 does not divide. -/
def IsLeap (year : Int) : Prop :=
  year % 4 = 0 ∧ (year % 100 ≠ 0 ∨ year % 400 = 0)

instance (year : Int) : Decidable (IsLeap year) := by
  unfold IsLeap
  infer_instance

/-- The number of days of a month, which is zero for a month that no year has. -/
def monthLength (year : Int) (month : Nat) : Nat :=
  if month = 2 then if IsLeap year then 29 else 28
  else if month = 4 ∨ month = 6 ∨ month = 9 ∨ month = 11 then 30
  else if 1 ≤ month ∧ month ≤ 12 then 31
  else 0

def daysInMonth (year : Int) (month : Nat) : Except Fault Nat :=
  if 1 ≤ month ∧ month ≤ 12 then .ok (monthLength year month) else .error (.invalidMonth month)

theorem month_length_le (year : Int) (month : Nat) : monthLength year month ≤ 31 := by
  unfold monthLength
  repeat' split
  all_goals omega

theorem month_length_pos_iff (year : Int) (month : Nat) :
    0 < monthLength year month ↔ 1 ≤ month ∧ month ≤ 12 := by
  unfold monthLength
  repeat' split
  all_goals omega

theorem days_in_month_eq_ok_iff (year : Int) (month length : Nat) :
    daysInMonth year month = .ok length ↔
      (1 ≤ month ∧ month ≤ 12) ∧ monthLength year month = length := by
  by_cases inYear : 1 ≤ month ∧ month ≤ 12 <;> simp [daysInMonth, inYear]

structure Date where
  year : Int
  month : Nat
  day : Nat
  deriving DecidableEq, Repr

namespace Date

/-- A valid date is one that the calendar shows. The bound on the day already
rules out months outside the year, because these have no days. -/
def Valid (date : Date) : Prop :=
  1 ≤ date.day ∧ date.day ≤ monthLength date.year date.month

instance (date : Date) : Decidable date.Valid := by
  unfold Valid
  infer_instance

theorem valid_month {date : Date} (valid : date.Valid) : 1 ≤ date.month ∧ date.month ≤ 12 :=
  (month_length_pos_iff date.year date.month).mp (Nat.lt_of_lt_of_le valid.1 valid.2)

instance : LT Date where
  lt first second :=
    first.year < second.year ∨ first.year = second.year ∧
      (first.month < second.month ∨ first.month = second.month ∧ first.day < second.day)

theorem lt_iff (first second : Date) :
    first < second ↔
      first.year < second.year ∨ first.year = second.year ∧
        (first.month < second.month ∨
          first.month = second.month ∧ first.day < second.day) := Iff.rfl

instance (first second : Date) : Decidable (first < second) :=
  decidable_of_iff _ (lt_iff first second).symm

theorem lt_trans {first second third : Date} (left : first < second) (right : second < third) :
    first < third := by
  simp only [lt_iff] at left right ⊢
  omega

/-- Months counted from January of year zero, to measure distances in months. -/
def monthIndex (date : Date) : Int := date.year * 12 + date.month - 1

/-- Weekdays by which each month of a common year runs ahead of January. -/
def commonShift : List Int := [0, 3, 3, 6, 1, 4, 6, 2, 5, 0, 3, 5]

/-- From March on, a leap year runs one weekday further ahead. -/
def leapShift : List Int := [0, 3, 4, 0, 2, 5, 0, 3, 6, 1, 4, 6]

/-- The weekday by the method of three remainders: the completed years
contribute through their remainders by 4, 100 and 400. -/
def weekdayNumber (date : Date) : Int :=
  let shifts := if IsLeap date.year then leapShift else commonShift
  let completed := date.year - 1
  (date.day + shifts.getD (date.month - 1) 0 +
    5 * (completed % 4) + 4 * (completed % 100) + 6 * (completed % 400)) % 7

/-- The weekday of a valid date, where 0 is Sunday. The first year of the span
has no completed year before it. -/
def weekday (date : Date) : Except Fault Nat :=
  if date.Valid then
    if earliestYear < date.year then .ok date.weekdayNumber.toNat else .error .yearLimit
  else .error (.invalidDate date.year date.month date.day)

def nextMonth (date : Date) : Except Fault Date :=
  if date.month < 12 then .ok { date with month := date.month + 1, day := 1 }
  else if date.year < latestYear then .ok { year := date.year + 1, month := 1, day := 1 }
  else .error .yearLimit

def nextDay (date : Date) : Except Fault Date :=
  match daysInMonth date.year date.month with
  | .error fault => .error fault
  | .ok length =>
      if date.day < length then .ok { date with day := date.day + 1 } else date.nextMonth

theorem lt_next_month {date next : Date} (stepped : date.nextMonth = .ok next) : date < next := by
  unfold nextMonth at stepped
  split at stepped
  case isTrue before =>
      obtain rfl := Except.ok.inj stepped
      exact Or.inr ⟨rfl, Or.inl (Nat.lt_succ_self _)⟩
  case isFalse =>
      split at stepped
      case isTrue inSpan =>
          obtain rfl := Except.ok.inj stepped
          exact Or.inl (Int.lt_succ _)
      case isFalse => cases stepped

theorem lt_next_day {date next : Date} (stepped : date.nextDay = .ok next) : date < next := by
  unfold nextDay at stepped
  split at stepped
  case h_1 => cases stepped
  case h_2 length _ =>
      split at stepped
      case isTrue before =>
          obtain rfl := Except.ok.inj stepped
          exact Or.inr ⟨rfl, Or.inr ⟨rfl, Nat.lt_succ_self _⟩⟩
      case isFalse => exact lt_next_month stepped

/-- Months counted so that the months beyond December, which no year has, count as
December does. So the count grows by one with every next month. -/
def monthRank (date : Date) : Int := date.year * 12 + min date.month 12

theorem month_rank_le_month_index (date : Date) : date.monthRank ≤ date.monthIndex + 1 := by
  simp only [monthRank, monthIndex]
  omega

theorem month_rank_next_month {date next : Date} (stepped : date.nextMonth = .ok next) :
    next.monthRank = date.monthRank + 1 := by
  unfold nextMonth at stepped
  split at stepped
  case isTrue before =>
      obtain rfl := Except.ok.inj stepped
      simp only [monthRank]
      omega
  case isFalse beyond =>
      split at stepped
      case isTrue inSpan =>
          obtain rfl := Except.ok.inj stepped
          simp only [monthRank]
          omega
      case isFalse => cases stepped

theorem next_day_cases {date next : Date} (stepped : date.nextDay = .ok next) :
    date.nextMonth = .ok next ∨ next = { date with day := date.day + 1 } ∧ date.day + 1 ≤ 31 := by
  unfold nextDay at stepped
  split at stepped
  case h_1 => cases stepped
  case h_2 length known =>
      split at stepped
      case isTrue before =>
          have inMonth := ((days_in_month_eq_ok_iff _ _ _).mp known).2
          have bound := month_length_le date.year date.month
          exact Or.inr ⟨(Except.ok.inj stepped).symm, by omega⟩
      case isFalse => exact Or.inl stepped

end Date

end CronSchedule
