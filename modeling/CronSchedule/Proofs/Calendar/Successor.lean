import CronSchedule.Proofs.Calendar.Steps
import Mathlib.Order.Bounds.Defs

/-!
# Each step leads to the next beginning of its unit

A unit begins at the moments whose finer parts are at their least. The step of a unit
leads to the first of these that comes after the moment in view: it jumps over none of
them, and it enters one month at most. For all units but the month this is read off the
count of seconds, where the beginnings are the multiples of the length of the unit.
-/

namespace CronSchedule

set_option autoImplicit false

inductive TimeUnit where
  | second
  | minute
  | hour
  | day
  | month
  deriving DecidableEq, Repr

namespace TimeUnit

/-- Whether the unit begins at the moment. A second begins at every moment. -/
def Begins : TimeUnit → Moment → Prop
  | .second, _ => True
  | .minute, moment => moment.clock.second = 0
  | .hour, moment => moment.clock.minute = 0 ∧ moment.clock.second = 0
  | .day, moment => moment.clock = Clock.midnight
  | .month, moment => moment.date.day = 1 ∧ moment.clock = Clock.midnight

def step : TimeUnit → Moment → Except Fault Moment
  | .second, moment => moment.nextSecond
  | .minute, moment => moment.nextMinute
  | .hour, moment => moment.nextHour
  | .day, moment => moment.nextDay
  | .month, moment => moment.nextMonth

/-- The beginnings of a unit after a moment. -/
def beginningsAfter (unit : TimeUnit) (moment : Moment) : Set Moment :=
  {other | other.Valid ∧ unit.Begins other ∧ moment < other}

/-- The next beginning of a unit after a moment, which lies in the same month or in the
next one. -/
structure Succeeds (unit : TimeUnit) (moment next : Moment) : Prop where
  least : IsLeast (unit.beginningsAfter moment) next
  noEarlierMonth : moment.monthIndex ≤ next.monthIndex
  nextMonthAtMost : next.monthIndex ≤ moment.monthIndex + 1

variable {unit : TimeUnit} {moment next : Moment}

theorem begins_second_iff (moment : Moment) :
    second.Begins moment ↔ moment.secondCount % 1 = 0 := by
  simp only [Begins, Int.emod_one]

theorem begins_minute_iff (valid : moment.Valid) :
    minute.Begins moment ↔ moment.secondCount % 60 = 0 := by
  have secondBound := valid.2.2.2
  simp only [Begins, Moment.secondCount, Clock.secondOfDay]
  omega

theorem begins_hour_iff (valid : moment.Valid) :
    hour.Begins moment ↔ moment.secondCount % 3600 = 0 := by
  rcases valid.2 with ⟨_, minuteBound, secondBound⟩
  simp only [Begins, Moment.secondCount, Clock.secondOfDay]
  omega

theorem eq_midnight_iff (clock : Clock) : clock = Clock.midnight ↔ clock.secondOfDay = 0 := by
  rcases clock with ⟨hour, minute, second⟩
  simp only [Clock.midnight, Clock.mk.injEq, Clock.secondOfDay]
  omega

theorem begins_day_iff (valid : moment.Valid) :
    day.Begins moment ↔ moment.secondCount % 86400 = 0 := by
  have inDay := Clock.second_of_day_lt_day valid.2
  simp only [Begins, eq_midnight_iff, Moment.secondCount]
  omega

/-- Where a unit begins at the multiples of its length, the next multiple is its next
beginning. -/
theorem least_of_multiple {length : Int} (positive : 0 < length)
    (multiples : ∀ other : Moment, other.Valid →
      (unit.Begins other ↔ other.secondCount % length = 0))
    (valid : moment.Valid) (nextValid : next.Valid)
    (count : next.secondCount = (moment.secondCount / length + 1) * length) :
    IsLeast (unit.beginningsAfter moment) next := by
  constructor
  · refine ⟨nextValid, (multiples next nextValid).mpr ?_, ?_⟩
    · rw [count]
      exact Int.mul_emod_left _ length
    · rw [Moment.lt_iff_second_count_lt valid nextValid, count]
      exact Int.lt_ediv_add_one_mul_self _ positive
  · intro other beginning
    rcases beginning with ⟨otherValid, begins, after⟩
    rw [Moment.lt_iff_second_count_lt valid otherValid] at after
    rw [Moment.le_iff_second_count_le nextValid otherValid, count]
    have whole : length ∣ other.secondCount :=
      Int.dvd_of_emod_eq_zero ((multiples other otherValid).mp begins)
    have units : other.secondCount / length * length = other.secondCount :=
      Int.ediv_mul_cancel whole
    have later : moment.secondCount / length < other.secondCount / length := by
      apply Int.ediv_lt_of_lt_mul positive
      rwa [units]
    rw [← units]
    exact Int.mul_le_mul_of_nonneg_right later (Int.le_of_lt positive)

/-- A step to the next multiple of such a unit succeeds, and enters no second month when it
comes no later than the end of the day. -/
theorem succeeds_of_reaches {length : Int} {outcome : Except Fault Moment}
    (positive : 0 < length)
    (multiples : ∀ other : Moment, other.Valid →
      (unit.Begins other ↔ other.secondCount % length = 0))
    (valid : moment.Valid) (inSpan : moment.date.year < latestYear)
    (reached : Moment.Reaches ((moment.secondCount / length + 1) * length) outcome)
    (inTime : (moment.secondCount / length + 1) * length ≤
      (moment.secondCount / 86400 + 1) * 86400) :
    ∃ next, outcome = .ok next ∧ unit.Succeeds moment next ∧
      next.secondCount = (moment.secondCount / length + 1) * length := by
  rcases reached with ⟨next, stepped, nextValid, count⟩
  have least := least_of_multiple positive multiples valid nextValid count
  have after := Moment.le_of_lt least.1.2.2
  rw [← count] at inTime
  have succeeds : unit.Succeeds moment next :=
    { least := least
      noEarlierMonth := Moment.month_index_mono valid nextValid after
      nextMonthAtMost := Moment.month_index_until_midnight valid nextValid inSpan inTime }
  exact ⟨next, stepped, succeeds, count⟩

/-- A first day of a month that comes after a moment lies in a later month. -/
theorem month_index_lt_of_begins_month {other : Moment} (valid : moment.Valid)
    (otherValid : other.Valid) (begins : month.Begins other) (after : moment < other) :
    moment.monthIndex < other.monthIndex := by
  by_contra notLater
  rcases begins with ⟨firstDay, atMidnight⟩
  have dayPositive := valid.1.1
  have withinMonth := Moment.within_month valid otherValid (Moment.le_of_lt after)
    (Int.not_lt.mp notLater)
  rcases withinMonth with ⟨sameYear, sameMonth, noEarlierDay⟩
  simp only [Moment.lt_iff, Date.lt_iff, Clock.lt_iff, atMidnight, Clock.midnight] at after
  omega

theorem begins_of_next_month (stepped : moment.nextMonth = .ok next) : month.Begins next := by
  rcases map_eq_ok_iff.mp stepped with ⟨date, found, rfl⟩
  refine ⟨?_, rfl⟩
  unfold Date.nextMonth at found
  split at found
  case isTrue =>
      cases found
      rfl
  case isFalse =>
      split at found
      case isTrue =>
          cases found
          rfl
      case isFalse => cases found

theorem month_step_succeeds (valid : moment.Valid) (inSpan : moment.date.year < latestYear) :
    ∃ next, moment.nextMonth = .ok next ∧ month.Succeeds moment next ∧
      next.monthIndex = moment.monthIndex + 1 := by
  rcases Moment.next_month_spec valid inSpan with ⟨next, stepped, nextValid, index, first⟩
  have least : IsLeast (month.beginningsAfter moment) next := by
    constructor
    · exact ⟨nextValid, begins_of_next_month stepped, Moment.lt_next_month stepped⟩
    · intro other beginning
      rcases beginning with ⟨otherValid, begins, after⟩
      apply first other otherValid
      have later := month_index_lt_of_begins_month valid otherValid begins after
      omega
  exact ⟨next, stepped, ⟨least, by omega, by omega⟩, index⟩

/-- From every valid moment before the last year the step of a unit leads to the next
beginning of the unit. The next second is one further in the count of seconds, and the next
month one further in the count of months. The order of moments is that of their counts, in
which the months follow. -/
theorem steps_lead_to_successors :
    (∀ moment : Moment, moment.Valid → moment.date.year < latestYear → ∀ unit : TimeUnit,
      ∃ next, unit.step moment = .ok next ∧ unit.Succeeds moment next ∧
        (unit = second → next.secondCount = moment.secondCount + 1) ∧
        (unit = month → next.monthIndex = moment.monthIndex + 1)) ∧
      ∀ first last : Moment, first.Valid → last.Valid →
        (first < last ↔ first.secondCount < last.secondCount) ∧
        (first.secondCount ≤ last.secondCount → first.monthIndex ≤ last.monthIndex) := by
  constructor
  · intro moment valid inSpan unit
    cases unit with
    | second =>
        have reached := Moment.next_second_reaches valid inSpan
        rw [← Int.ediv_one moment.secondCount, ← Int.mul_one (_ + 1)] at reached
        rcases succeeds_of_reaches Int.one_pos (fun other _ => begins_second_iff other) valid
          inSpan reached (by omega) with ⟨next, stepped, succeeds, count⟩
        refine ⟨next, stepped, succeeds, ?_, by simp⟩
        intro _
        omega
    | minute =>
        rcases succeeds_of_reaches (by decide) (fun _ => begins_minute_iff) valid inSpan
          (Moment.next_minute_reaches valid inSpan) (by omega) with ⟨next, stepped, succeeds, _⟩
        exact ⟨next, stepped, succeeds, by simp, by simp⟩
    | hour =>
        rcases succeeds_of_reaches (by decide) (fun _ => begins_hour_iff) valid inSpan
          (Moment.next_hour_reaches valid inSpan) (by omega) with ⟨next, stepped, succeeds, _⟩
        exact ⟨next, stepped, succeeds, by simp, by simp⟩
    | day =>
        rcases succeeds_of_reaches (by decide) (fun _ => begins_day_iff) valid inSpan
          (Moment.next_day_reaches valid inSpan) (by omega) with ⟨next, stepped, succeeds, _⟩
        exact ⟨next, stepped, succeeds, by simp, by simp⟩
    | month =>
        rcases month_step_succeeds valid inSpan with ⟨next, stepped, succeeds, index⟩
        exact ⟨next, stepped, succeeds, by simp, fun _ => index⟩
  · intro first last firstValid lastValid
    refine ⟨Moment.lt_iff_second_count_lt firstValid lastValid, ?_⟩
    intro ordered
    apply Moment.month_index_mono firstValid lastValid
    exact (Moment.le_iff_second_count_le firstValid lastValid).mpr ordered

/-- In the last second of 28 February all units but the month begin together, in a leap year
on the 29th. -/
theorem steps_lead_to_successors_on_leap_day :
    let moment : Moment := ⟨⟨2024, 2, 28⟩, ⟨23, 59, 59⟩⟩
    let leapDay : Moment := ⟨⟨2024, 2, 29⟩, ⟨0, 0, 0⟩⟩
    let march : Moment := ⟨⟨2024, 3, 1⟩, ⟨0, 0, 0⟩⟩
    moment.Valid ∧ moment.date.year < latestYear ∧ march.Valid ∧
      second.Succeeds moment leapDay ∧ leapDay.secondCount = moment.secondCount + 1 ∧
      minute.Succeeds moment leapDay ∧ hour.Succeeds moment leapDay ∧
      day.Succeeds moment leapDay ∧ month.Succeeds moment march ∧
      march.monthIndex = moment.monthIndex + 1 ∧
      (moment < march ↔ moment.secondCount < march.secondCount) := by
  intro moment leapDay march
  have valid : moment.Valid := by decide
  have inSpan : moment.date.year < latestYear := by decide
  have marchValid : march.Valid := by decide
  rcases steps_lead_to_successors with ⟨steps, order⟩
  have reached : ∀ (unit : TimeUnit) (next : Moment), unit.step moment = .ok next →
      unit.Succeeds moment next ∧
        (unit = second → next.secondCount = moment.secondCount + 1) ∧
        (unit = month → next.monthIndex = moment.monthIndex + 1) := by
    intro unit next stepped
    rcases steps moment valid inSpan unit with ⟨other, otherStepped, succeeds⟩
    rw [stepped] at otherStepped
    rwa [Except.ok.inj otherStepped]
  have nextSecond := reached second leapDay rfl
  have nextMonth := reached month march rfl
  have nextMinute := reached minute leapDay rfl
  have nextHour := reached hour leapDay rfl
  have nextDay := reached day leapDay rfl
  exact ⟨valid, inSpan, marchValid, nextSecond.1, nextSecond.2.1 rfl, nextMinute.1, nextHour.1,
    nextDay.1, nextMonth.1, nextMonth.2.2 rfl, (order moment march valid marchValid).1⟩

end TimeUnit

end CronSchedule
