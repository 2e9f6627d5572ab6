import CronSchedule.Calendar.Moment
import CronSchedule.Expression.Basic

/-!
# Schedules

A schedule is an expression with every rule replaced by the set of its values.
An unrestricted day field has no set: it takes no part in choosing days. When
both day fields are restricted, a day matches as soon as one of them does.
-/

namespace CronSchedule

set_option autoImplicit false

structure Schedule where
  /-- Whether occurrences are told apart by the second, or else by the minute. -/
  bySecond : Bool
  seconds : ValueSet
  minutes : ValueSet
  hours : ValueSet
  days : Option ValueSet
  months : ValueSet
  weekdays : Option ValueSet
  deriving DecidableEq, Repr

namespace Schedule

def restriction (rule : Rule) (field : Field) : Except Fault (Option ValueSet) :=
  if rule.isAny then .ok none else (rule.values field).map some

def ofExpression (expression : Expression) : Except Fault Schedule := do
  let seconds ← (expression.rule .second).values .second
  let minutes ← expression.minute.values .minute
  let hours ← expression.hour.values .hour
  let days ← restriction expression.dayOfMonth .dayOfMonth
  let months ← expression.month.values .month
  let weekdays ← restriction expression.dayOfWeek .dayOfWeek
  return ⟨expression.hasSeconds, seconds, minutes, hours, days, months, weekdays⟩

/-- Whether the schedule selects a day of a selected month. The weekday is only
determined when the day of the month does not settle the matter. -/
def matchesDay (schedule : Schedule) (date : Date) : Except Fault Bool :=
  match schedule.days, schedule.weekdays with
  | none, none => .ok true
  | some days, none => .ok (decide (date.day ∈ days))
  | none, some weekdays => date.weekday.map fun weekday => decide (weekday ∈ weekdays)
  | some days, some weekdays =>
      if date.day ∈ days then .ok true
      else date.weekday.map fun weekday => decide (weekday ∈ weekdays)

/-- The day rule: an unrestricted field selects nothing by itself, and of two
restricted fields either suffices. -/
def SelectsDay (schedule : Schedule) (date : Date) : Prop :=
  match schedule.days, schedule.weekdays with
  | none, none => True
  | some days, none => date.day ∈ days
  | none, some weekdays => date.weekdayNumber.toNat ∈ weekdays
  | some days, some weekdays => date.day ∈ days ∨ date.weekdayNumber.toNat ∈ weekdays

def Matches (schedule : Schedule) (moment : Moment) : Prop :=
  moment.date.month ∈ schedule.months ∧ schedule.SelectsDay moment.date ∧
    moment.clock.hour ∈ schedule.hours ∧ moment.clock.minute ∈ schedule.minutes ∧
    moment.clock.second ∈ schedule.seconds

/-- On valid dates of the span the day rule is decided without a fault. -/
theorem matches_day_iff (schedule : Schedule) {date : Date} (valid : date.Valid)
    (inSpan : earliestYear < date.year) :
    ∃ selected, schedule.matchesDay date = .ok selected ∧
      (selected = true ↔ schedule.SelectsDay date) := by
  have known : date.weekday = .ok date.weekdayNumber.toNat := by
    rw [Date.weekday, if_pos valid, if_pos inSpan]
  unfold matchesDay SelectsDay
  cases schedule.days with
  | none =>
      cases schedule.weekdays with
      | none => exact ⟨true, rfl, by simp⟩
      | some weekdays => exact ⟨_, by simp only [known]; rfl, decide_eq_true_iff⟩
  | some days =>
      cases schedule.weekdays with
      | none => exact ⟨_, rfl, decide_eq_true_iff⟩
      | some weekdays =>
          by_cases selected : date.day ∈ days
          · exact ⟨true, by simp [selected], by simp [selected]⟩
          · refine ⟨decide (date.weekdayNumber.toNat ∈ weekdays), ?_, by simp [selected]⟩
            simp only [known, if_neg selected]
            rfl

/-- The beginning of the next second or minute, where a walk along the schedule
goes on after an occurrence. -/
def step (schedule : Schedule) (moment : Moment) : Except Fault Moment :=
  if schedule.bySecond then moment.nextSecond else moment.nextMinute

theorem lt_step {schedule : Schedule} {moment next : Moment}
    (stepped : schedule.step moment = .ok next) : moment < next := by
  unfold step at stepped
  split at stepped
  · exact Moment.lt_next_second stepped
  · exact Moment.lt_next_minute stepped

end Schedule

end CronSchedule
