import CronSchedule.Calendar.DayCount
import CronSchedule.Calendar.Clock
import CronSchedule.Outcome

/-!
# Wall-clock moments

A `Moment` is a date with a time of day, without an offset. The steps move to
the beginning of the next unit and set all finer fields to their minimum; each
lands strictly later in the field-wise order.
-/

namespace CronSchedule

set_option autoImplicit false

structure Moment where
  date : Date
  clock : Clock
  deriving DecidableEq, Repr

namespace Moment

def Valid (moment : Moment) : Prop := moment.date.Valid ∧ moment.clock.Valid

instance (moment : Moment) : Decidable moment.Valid := by
  unfold Valid
  infer_instance

instance : LT Moment where
  lt first second :=
    first.date < second.date ∨ first.date = second.date ∧ first.clock < second.clock

instance : LE Moment where
  le first second := first < second ∨ first = second

theorem lt_iff (first second : Moment) :
    first < second ↔
      first.date < second.date ∨ first.date = second.date ∧ first.clock < second.clock := Iff.rfl

theorem le_iff (first second : Moment) : first ≤ second ↔ first < second ∨ first = second := Iff.rfl

instance (first second : Moment) : Decidable (first < second) :=
  decidable_of_iff _ (lt_iff first second).symm

instance (first second : Moment) : Decidable (first ≤ second) :=
  decidable_of_iff _ (le_iff first second).symm

def monthIndex (moment : Moment) : Int := moment.date.monthIndex

def midnight (date : Date) : Moment := ⟨date, Clock.midnight⟩

def nextMonth (moment : Moment) : Except Fault Moment := moment.date.nextMonth.map midnight

def nextDay (moment : Moment) : Except Fault Moment := moment.date.nextDay.map midnight

/-- The given time of the same day, or the next day when the day has none. -/
def carry (moment : Moment) : Option Clock → Except Fault Moment
  | some clock => .ok { moment with clock := clock }
  | none => moment.nextDay

def nextHour (moment : Moment) : Except Fault Moment := moment.carry moment.clock.nextHour?

def nextMinute (moment : Moment) : Except Fault Moment := moment.carry moment.clock.nextMinute?

def nextSecond (moment : Moment) : Except Fault Moment := moment.carry moment.clock.nextSecond?

/-- Seconds since the beginning of year 1. -/
def secondCount (moment : Moment) : Int :=
  moment.date.dayNumber * 86400 + moment.clock.secondOfDay

def ofSecondCount (count : Int) : Moment :=
  ⟨Date.ofDayNumber (count / 86400), Clock.ofSecondOfDay (count % 86400).toNat⟩

def firstYear : Int := -262143

def lastYear : Int := 262142

/-- Representable are the valid moments of whole years. -/
def Representable (moment : Moment) : Prop :=
  moment.Valid ∧ firstYear ≤ moment.date.year ∧ moment.date.year ≤ lastYear

instance (moment : Moment) : Decidable moment.Representable := by
  unfold Representable
  infer_instance

theorem le_refl (moment : Moment) : moment ≤ moment := Or.inr rfl

theorem le_of_lt {first second : Moment} (before : first < second) : first ≤ second :=
  Or.inl before

theorem lt_trans {first second third : Moment} (left : first < second)
    (right : second < third) : first < third := by
  rcases left with left | ⟨leftDate, left⟩
  · rcases right with right | ⟨rightDate, _⟩
    · exact Or.inl (Date.lt_trans left right)
    · exact Or.inl (rightDate ▸ left)
  · rcases right with right | ⟨rightDate, right⟩
    · exact Or.inl (leftDate ▸ right)
    · exact Or.inr ⟨leftDate.trans rightDate, Clock.lt_trans left right⟩

theorem lt_of_le_of_lt {first second third : Moment} (left : first ≤ second)
    (right : second < third) : first < third := by
  rcases left with left | rfl
  · exact lt_trans left right
  · exact right

theorem lt_of_lt_of_le {first second third : Moment} (left : first < second)
    (right : second ≤ third) : first < third := by
  rcases right with right | rfl
  · exact lt_trans left right
  · exact left

theorem le_trans {first second third : Moment} (left : first ≤ second)
    (right : second ≤ third) : first ≤ third := by
  rcases left with left | rfl
  · exact le_of_lt (lt_of_lt_of_le left right)
  · exact right

theorem date_of_next_month {moment next : Moment} (stepped : moment.nextMonth = .ok next) :
    moment.date.nextMonth = .ok next.date := by
  obtain ⟨date, found, rfl⟩ := map_eq_ok_iff.mp stepped
  exact found

theorem date_of_next_day {moment next : Moment} (stepped : moment.nextDay = .ok next) :
    moment.date.nextDay = .ok next.date := by
  obtain ⟨date, found, rfl⟩ := map_eq_ok_iff.mp stepped
  exact found

theorem lt_next_month {moment next : Moment} (stepped : moment.nextMonth = .ok next) :
    moment < next :=
  Or.inl (Date.lt_next_month (date_of_next_month stepped))

theorem lt_next_day {moment next : Moment} (stepped : moment.nextDay = .ok next) :
    moment < next :=
  Or.inl (Date.lt_next_day (date_of_next_day stepped))

theorem lt_carry {moment next : Moment} {target : Option Clock}
    (later : ∀ clock, target = some clock → moment.clock < clock)
    (stepped : moment.carry target = .ok next) : moment < next := by
  cases target with
  | none => exact lt_next_day stepped
  | some clock =>
      obtain rfl := Except.ok.inj stepped
      exact Or.inr ⟨rfl, later clock rfl⟩

theorem lt_next_hour {moment next : Moment} (stepped : moment.nextHour = .ok next) :
    moment < next :=
  lt_carry (fun _ => Clock.lt_next_hour) stepped

theorem lt_next_minute {moment next : Moment} (stepped : moment.nextMinute = .ok next) :
    moment < next :=
  lt_carry (fun _ => Clock.lt_next_minute) stepped

theorem lt_next_second {moment next : Moment} (stepped : moment.nextSecond = .ok next) :
    moment < next :=
  lt_carry (fun _ => Clock.lt_next_second) stepped

end Moment

end CronSchedule
