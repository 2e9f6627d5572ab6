import CronSchedule.Proofs.Calendar.Timeline
import CronSchedule.Proofs.Expression.WellFormed
import CronSchedule.Proofs.Field.Values
import CronSchedule.Schedule.Basic

/-!
# Moments that match an expression

An expression is read field by field: each rule selects values of its field, and a
moment matches when its fields are selected and its day passes the day rule. The
schedule of a well formed expression fires at exactly these moments.
-/

namespace CronSchedule

set_option autoImplicit false

namespace Rule

def Selects (rule : Rule) (field : Field) (value : Nat) : Prop :=
  ∃ values, rule.values field = .ok values ∧ value ∈ values

variable {rule : Rule} {field : Field}

theorem selects_iff {values : ValueSet} (known : rule.values field = .ok values) (value : Nat) :
    rule.Selects field value ↔ value ∈ values := by
  simp [Selects, known]

theorem selects_iff_covers (advances : rule.Advances) (value : Nat) :
    rule.Selects field value ↔
      ∃ number, rule.Covers field.domain number ∧ field.canonical number = value := by
  rcases values_cover advances with ⟨values, known, covered⟩
  rw [selects_iff known, covered value]

theorem selects_specific_iff (number value : Nat) :
    (Rule.specific number).Selects field value ↔ value = field.canonical number := by
  rw [selects_iff_covers (show (Rule.specific number).Advances from trivial)]
  constructor
  · rintro ⟨_, rfl, rfl⟩
    rfl
  · rintro rfl
    exact ⟨number, rfl, rfl⟩

end Rule

namespace Expression

/-- The day rule, with the weekday counted from 1 January of year 1, a Monday. -/
def SelectsDay (expression : Expression) (date : Date) : Prop :=
  (expression.dayOfMonth.isAny = true ∧ expression.dayOfWeek.isAny = true) ∨
    (expression.dayOfMonth.isAny = false ∧ expression.dayOfMonth.Selects .dayOfMonth date.day) ∨
      (expression.dayOfWeek.isAny = false ∧
        expression.dayOfWeek.Selects .dayOfWeek ((date.dayNumber + 1) % 7).toNat)

/-- Without a seconds field only second 0 is selected. -/
def SelectsSecond (expression : Expression) (second : Nat) : Prop :=
  match expression.second with
  | none => second = 0
  | some rule => rule.Selects .second second

/-- The wall-clock moments that the expression names. -/
def Matches (expression : Expression) (moment : Moment) : Prop :=
  expression.month.Selects .month moment.date.month ∧ expression.SelectsDay moment.date ∧
    expression.hour.Selects .hour moment.clock.hour ∧
    expression.minute.Selects .minute moment.clock.minute ∧
    expression.SelectsSecond moment.clock.second

/-- A time of day on one day of one month comes at most once a year. -/
theorem matches_yearly_iff (minute hour day month : Nat) (moment : Moment) :
    (Expression.mk none (.specific minute) (.specific hour) (.specific day) (.specific month)
        .any).Matches moment ↔
      moment = ⟨⟨moment.date.year, month, day⟩, ⟨hour, minute, 0⟩⟩ := by
  obtain ⟨⟨year, _, _⟩, ⟨_, _, _⟩⟩ := moment
  simp only [Matches, SelectsDay, SelectsSecond, Rule.selects_specific_iff, Field.canonical,
    Rule.isAny, Moment.mk.injEq, Date.mk.injEq, Clock.mk.injEq]
  simp [and_assoc]

end Expression

namespace Schedule

/-- The schedule fires at the moments that the expression names, and its times of day
are times of the clock. -/
structure Represents (schedule : Schedule) (expression : Expression) : Prop where
  bySecond : schedule.bySecond = expression.hasSeconds
  wholeMinutes : expression.second = none → ∀ second ∈ schedule.seconds, second = 0
  seconds : ∀ second ∈ schedule.seconds, second ≤ 59
  minutes : ∀ minute ∈ schedule.minutes, minute ≤ 59
  hours : ∀ hour ∈ schedule.hours, hour ≤ 23
  fires : ∀ moment : Moment, moment.Valid → (schedule.Matches moment ↔ expression.Matches moment)

theorem restriction_spec {rule : Rule} {field : Field} (wellFormed : rule.WellFormed field) :
    ∃ restricted, restriction rule field = .ok restricted ∧
      (rule.isAny = true ∧ restricted = none ∨
        rule.isAny = false ∧ ∃ values, restricted = some values ∧
          rule.values field = .ok values) := by
  unfold restriction
  cases unrestricted : rule.isAny with
  | true => exact ⟨none, rfl, Or.inl ⟨rfl, rfl⟩⟩
  | false =>
      obtain ⟨values, known, _⟩ := Rule.values_spec wellFormed
      refine ⟨some values, ?_, Or.inr ⟨rfl, values, rfl, known⟩⟩
      simp [known, Except.map]

theorem selects_day_iff {schedule : Schedule} {expression : Expression} {date : Date}
    (days : restriction expression.dayOfMonth .dayOfMonth = .ok schedule.days)
    (weekdays : restriction expression.dayOfWeek .dayOfWeek = .ok schedule.weekdays)
    (wellFormed : expression.WellFormed) (valid : date.Valid) :
    schedule.SelectsDay date ↔ expression.SelectsDay date := by
  obtain ⟨daySet, dayKnown, dayCases⟩ := restriction_spec wellFormed.dayOfMonth
  obtain ⟨weekdaySet, weekdayKnown, weekdayCases⟩ := restriction_spec wellFormed.dayOfWeek
  rw [days] at dayKnown
  rw [weekdays] at weekdayKnown
  unfold SelectsDay Expression.SelectsDay
  rw [Except.ok.inj dayKnown, Except.ok.inj weekdayKnown, Date.weekday_number_eq valid]
  rcases dayCases with ⟨anyDay, noDays⟩ | ⟨someDay, dayValues, theDays, dayRule⟩
  · rcases weekdayCases with ⟨anyWeekday, noWeekdays⟩ | ⟨someWeekday, values, theWeekdays, rule⟩
    · simp [noDays, noWeekdays, anyDay, anyWeekday]
    · simp [noDays, theWeekdays, anyDay, someWeekday, Rule.selects_iff rule]
  · rcases weekdayCases with ⟨anyWeekday, noWeekdays⟩ | ⟨someWeekday, values, theWeekdays, rule⟩
    · simp [theDays, noWeekdays, someDay, anyWeekday, Rule.selects_iff dayRule]
    · simp [theDays, theWeekdays, someDay, someWeekday, Rule.selects_iff dayRule,
        Rule.selects_iff rule]

theorem selects_second_iff {expression : Expression} {seconds : ValueSet}
    (known : (expression.rule .second).values .second = .ok seconds) (second : Nat) :
    second ∈ seconds ↔ expression.SelectsSecond second := by
  rw [← Rule.selects_iff known]
  unfold Expression.SelectsSecond
  cases present : expression.second with
  | some rule => simp [Expression.rule, present]
  | none =>
      have only : (Rule.specific 0).values .second = .ok (ValueSet.singleton 0) := by decide
      simp [Expression.rule, present, Rule.selects_iff only, ValueSet.mem_singleton]

theorem of_expression_spec {expression : Expression} (wellFormed : expression.WellFormed) :
    ∃ schedule, ofExpression expression = .ok schedule ∧ schedule.Represents expression := by
  obtain ⟨seconds, secondsKnown, secondsBound⟩ := Rule.values_spec (wellFormed.rule .second)
  obtain ⟨minutes, minutesKnown, minutesBound⟩ := Rule.values_spec wellFormed.minute
  obtain ⟨hours, hoursKnown, hoursBound⟩ := Rule.values_spec wellFormed.hour
  obtain ⟨days, daysKnown, _⟩ := restriction_spec wellFormed.dayOfMonth
  obtain ⟨months, monthsKnown, _⟩ := Rule.values_spec wellFormed.month
  obtain ⟨weekdays, weekdaysKnown, _⟩ := restriction_spec wellFormed.dayOfWeek
  refine ⟨⟨expression.hasSeconds, seconds, minutes, hours, days, months, weekdays⟩, ?_, ?_⟩
  · simp only [ofExpression, secondsKnown, minutesKnown, hoursKnown, daysKnown, monthsKnown,
      weekdaysKnown]
    rfl
  · constructor
    case bySecond => rfl
    case wholeMinutes =>
        intro absent second member
        have selected := (selects_second_iff secondsKnown second).mp member
        simpa only [Expression.SelectsSecond, absent] using selected
    case seconds => exact fun second member => (secondsBound second member).2
    case minutes => exact fun minute member => (minutesBound minute member).2
    case hours => exact fun hour member => (hoursBound hour member).2
    case fires =>
        intro moment valid
        unfold Schedule.Matches Expression.Matches
        rw [Rule.selects_iff monthsKnown, Rule.selects_iff hoursKnown,
          Rule.selects_iff minutesKnown, ← selects_second_iff secondsKnown,
          selects_day_iff daysKnown weekdaysKnown wellFormed valid.1]

end Schedule

end CronSchedule
