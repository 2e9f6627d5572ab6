import CronSchedule.Proofs.Calendar.Steps

/-!
# The calendar repeats every 400 years

A cycle of 400 years always has the same leap years and a whole number of weeks. So the
months of a year have the same lengths, and its dates the same weekdays, any number of
cycles earlier or later, and a step from there leads to the same place of that cycle.
Only the ends of the span of years tell one cycle from another.
-/

namespace CronSchedule

set_option autoImplicit false

theorem is_leap_later (year cycles : Int) : IsLeap (year + 400 * cycles) ↔ IsLeap year := by
  simp only [IsLeap]
  omega

theorem month_length_later (year cycles : Int) (month : Nat) :
    monthLength (year + 400 * cycles) month = monthLength year month := by
  simp only [monthLength, is_leap_later]

theorem days_in_month_later (year cycles : Int) (month : Nat) :
    daysInMonth (year + 400 * cycles) month = daysInMonth year month := by
  simp only [daysInMonth, month_length_later]

namespace Date

/-- The same day of the year, so many cycles of 400 years later or, with a negative
number, earlier. -/
def cyclesLater (cycles : Int) (date : Date) : Date :=
  { date with year := date.year + 400 * cycles }

/-- The weekdays of the year are known, and a walk that goes so many months ahead enters
no year after the span, not even in the month after the last one. -/
def HasRoom (date : Date) (months : Nat) : Prop :=
  earliestYear < date.year ∧ date.monthIndex + months + 1 < (latestYear + 1) * 12

instance (date : Date) (months : Nat) : Decidable (date.HasRoom months) := by
  unfold HasRoom
  infer_instance

variable {date next : Date} {cycles : Int}

theorem valid_later (date : Date) (cycles : Int) :
    (date.cyclesLater cycles).Valid ↔ date.Valid := by
  simp only [Valid, cyclesLater, month_length_later]

theorem month_index_later (date : Date) (cycles : Int) :
    (date.cyclesLater cycles).monthIndex = date.monthIndex + 4800 * cycles := by
  simp only [monthIndex, cyclesLater]
  omega

/-- All three remainders of a completed year are those of the year 400 years later. -/
theorem weekday_number_later (date : Date) (cycles : Int) :
    (date.cyclesLater cycles).weekdayNumber = date.weekdayNumber := by
  have byFour : (date.year + 400 * cycles - 1) % 4 = (date.year - 1) % 4 := by omega
  have byHundred : (date.year + 400 * cycles - 1) % 100 = (date.year - 1) % 100 := by omega
  have byCycle : (date.year + 400 * cycles - 1) % 400 = (date.year - 1) % 400 := by omega
  simp only [weekdayNumber, cyclesLater, is_leap_later, byFour, byHundred, byCycle]

theorem weekday_later {weekday : Nat} (lower : earliestYear < (date.cyclesLater cycles).year)
    (known : date.weekday = .ok weekday) : (date.cyclesLater cycles).weekday = .ok weekday := by
  unfold Date.weekday at known
  split at known
  case isTrue valid =>
      split at known
      case isTrue =>
          rw [Date.weekday, if_pos ((valid_later date cycles).mpr valid), if_pos lower,
            weekday_number_later]
          exact known
      case isFalse => cases known
  case isFalse => cases known

theorem next_month_later (room : (date.cyclesLater cycles).HasRoom 0)
    (stepped : date.nextMonth = .ok next) :
    (date.cyclesLater cycles).nextMonth = .ok (next.cyclesLater cycles) := by
  have sameMonth : (date.cyclesLater cycles).month = date.month := rfl
  unfold nextMonth at stepped
  split at stepped
  case isTrue before =>
      obtain rfl := Except.ok.inj stepped
      rw [← sameMonth] at before
      rw [nextMonth, if_pos before]
      rfl
  case isFalse december =>
      split at stepped
      case isTrue =>
          obtain rfl := Except.ok.inj stepped
          rw [← sameMonth] at december
          have upper : (date.cyclesLater cycles).year < latestYear := by
            obtain ⟨_, upper⟩ := room
            simp only [monthIndex] at upper
            omega
          rw [nextMonth, if_neg december, if_pos upper]
          simp only [cyclesLater, Except.ok.injEq, mk.injEq, and_true]
          omega
      case isFalse => cases stepped

theorem next_day_later (room : (date.cyclesLater cycles).HasRoom 0)
    (stepped : date.nextDay = .ok next) :
    (date.cyclesLater cycles).nextDay = .ok (next.cyclesLater cycles) := by
  have sameLength : daysInMonth (date.cyclesLater cycles).year (date.cyclesLater cycles).month =
      daysInMonth date.year date.month := days_in_month_later date.year cycles date.month
  have sameDay : (date.cyclesLater cycles).day = date.day := rfl
  unfold nextDay at stepped ⊢
  rw [sameLength]
  cases known : daysInMonth date.year date.month with
  | error fault =>
      rw [known] at stepped
      cases stepped
  | ok length =>
      simp only [known, sameDay] at stepped ⊢
      split at stepped
      case isTrue before =>
          obtain rfl := Except.ok.inj stepped
          rw [if_pos before]
          rfl
      case isFalse last =>
          rw [if_neg last]
          exact next_month_later room stepped

end Date

namespace Moment

def cyclesLater (cycles : Int) (moment : Moment) : Moment :=
  { moment with date := moment.date.cyclesLater cycles }

variable {moment next : Moment} {cycles : Int}

theorem valid_later (moment : Moment) (cycles : Int) :
    (moment.cyclesLater cycles).Valid ↔ moment.Valid :=
  and_congr_left' (Date.valid_later moment.date cycles)

theorem month_index_later (moment : Moment) (cycles : Int) :
    (moment.cyclesLater cycles).monthIndex = moment.monthIndex + 4800 * cycles :=
  Date.month_index_later moment.date cycles

/-- Going back as many cycles undoes going ahead. -/
theorem cycles_later_neg (moment : Moment) (cycles : Int) :
    (moment.cyclesLater cycles).cyclesLater (-cycles) = moment := by
  obtain ⟨⟨year, month, day⟩, clock⟩ := moment
  simp only [cyclesLater, Date.cyclesLater, mk.injEq, Date.mk.injEq, and_true]
  omega

/-- Every moment has its counterpart in the years from 2000 to 2399, far from both ends of
the span of years. -/
theorem exists_roomy_cycle {moment : Moment} (valid : moment.Valid) :
    ∃ cycles, (moment.cyclesLater cycles).Valid ∧
      earliestYear < (moment.cyclesLater cycles).date.year ∧
      (moment.cyclesLater cycles).monthIndex + 2 ^ 32 < latestYear * 12 := by
  let cycles := -((moment.date.year - 2000) / 400)
  have laterValid := (valid_later moment cycles).mpr valid
  have year : (moment.cyclesLater cycles).date.year = moment.date.year + 400 * cycles := rfl
  have months := month_index_bounds laterValid
  refine ⟨cycles, laterValid, ?_, ?_⟩
  · simp only [earliestYear]
    omega
  · simp only [latestYear]
    omega

theorem next_month_later (room : (moment.cyclesLater cycles).date.HasRoom 0)
    (stepped : moment.nextMonth = .ok next) :
    (moment.cyclesLater cycles).nextMonth = .ok (next.cyclesLater cycles) := by
  obtain ⟨date, found, rfl⟩ := map_eq_ok_iff.mp stepped
  exact map_eq_ok_iff.mpr ⟨_, Date.next_month_later room found, rfl⟩

theorem next_day_later (room : (moment.cyclesLater cycles).date.HasRoom 0)
    (stepped : moment.nextDay = .ok next) :
    (moment.cyclesLater cycles).nextDay = .ok (next.cyclesLater cycles) := by
  obtain ⟨date, found, rfl⟩ := map_eq_ok_iff.mp stepped
  exact map_eq_ok_iff.mpr ⟨_, Date.next_day_later room found, rfl⟩

theorem carry_later {target : Option Clock} (room : (moment.cyclesLater cycles).date.HasRoom 0)
    (stepped : moment.carry target = .ok next) :
    (moment.cyclesLater cycles).carry target = .ok (next.cyclesLater cycles) := by
  cases target with
  | none => exact next_day_later room stepped
  | some clock =>
      obtain rfl := Except.ok.inj stepped
      rfl

end Moment

end CronSchedule
