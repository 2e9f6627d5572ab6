import CronSchedule.Proofs.Expression.Matching

/-!
# Two expressions for the two day fields

An expression that restricts both day fields stands for two expressions with one of these
fields left open each. Its moments are those of the one together with those of the other,
and so its schedule selects a day as soon as the schedule of either does.
-/

namespace CronSchedule

set_option autoImplicit false

namespace Expression

/-- The expression with any day of the week. -/
def onDays (expression : Expression) : Expression := { expression with dayOfWeek := .any }

/-- The expression with any day of the month. -/
def onWeekdays (expression : Expression) : Expression := { expression with dayOfMonth := .any }

variable {expression : Expression}

theorem WellFormed.on_days (wellFormed : expression.WellFormed) :
    expression.onDays.WellFormed := { wellFormed with dayOfWeek := trivial }

theorem WellFormed.on_weekdays (wellFormed : expression.WellFormed) :
    expression.onWeekdays.WellFormed := { wellFormed with dayOfMonth := trivial }

theorem selects_day_iff_either (byDay : expression.dayOfMonth.isAny = false)
    (byWeekday : expression.dayOfWeek.isAny = false) (date : Date) :
    expression.SelectsDay date ↔
      expression.onDays.SelectsDay date ∨ expression.onWeekdays.SelectsDay date := by
  have unrestricted : Rule.any.isAny = true := rfl
  simp [SelectsDay, onDays, onWeekdays, byDay, byWeekday, unrestricted]

theorem matches_iff_either (byDay : expression.dayOfMonth.isAny = false)
    (byWeekday : expression.dayOfWeek.isAny = false) (moment : Moment) :
    expression.Matches moment ↔
      expression.onDays.Matches moment ∨ expression.onWeekdays.Matches moment := by
  unfold Matches
  rw [selects_day_iff_either byDay byWeekday]
  constructor
  · intro selected
    rcases selected with ⟨month, onDay | onWeekday, time⟩
    · exact Or.inl ⟨month, onDay, time⟩
    · exact Or.inr ⟨month, onWeekday, time⟩
  · intro selected
    rcases selected with ⟨month, onDay, time⟩ | ⟨month, onWeekday, time⟩
    · exact ⟨month, Or.inl onDay, time⟩
    · exact ⟨month, Or.inr onWeekday, time⟩

end Expression

namespace Schedule

variable {schedule : Schedule} {expression : Expression} {date : Date}

/-- The expressions with a day field left open have the schedule without the set for it. -/
theorem of_expression_open_day (made : ofExpression expression = .ok schedule) :
    ofExpression expression.onDays = .ok { schedule with weekdays := none } ∧
      ofExpression expression.onWeekdays = .ok { schedule with days := none } := by
  simp only [ofExpression, bind_eq_ok_iff] at made ⊢
  rcases made with ⟨seconds, secondsKnown, minutes, minutesKnown, hours, hoursKnown, days,
    daysKnown, months, monthsKnown, weekdays, weekdaysKnown, same⟩
  cases same
  constructor
  · exact ⟨seconds, secondsKnown, minutes, minutesKnown, hours, hoursKnown, days, daysKnown, months,
      monthsKnown, none, rfl, rfl⟩
  · exact ⟨seconds, secondsKnown, minutes, minutesKnown, hours, hoursKnown, none, rfl, months,
      monthsKnown, weekdays, weekdaysKnown, rfl⟩

theorem exists_of_restriction {rule : Rule} {field : Field} {restricted : Option ValueSet}
    (known : restriction rule field = .ok restricted) (someDay : rule.isAny = false) :
    ∃ values, restricted = some values := by
  rw [restriction, someDay] at known
  rcases map_eq_ok_iff.mp known with ⟨values, _, same⟩
  exact ⟨values, same.symm⟩

/-- Restricted day fields have their sets. -/
theorem exists_day_sets (made : ofExpression expression = .ok schedule)
    (byDay : expression.dayOfMonth.isAny = false)
    (byWeekday : expression.dayOfWeek.isAny = false) :
    (∃ days, schedule.days = some days) ∧ ∃ weekdays, schedule.weekdays = some weekdays := by
  simp only [ofExpression, bind_eq_ok_iff] at made
  rcases made with ⟨_, _, _, _, _, _, days, daysKnown, _, _, weekdays, weekdaysKnown, same⟩
  cases same
  constructor
  · exact exists_of_restriction daysKnown byDay
  · exact exists_of_restriction weekdaysKnown byWeekday

/-- A day is selected as soon as either schedule selects it. -/
theorem matches_day_eq_or (made : ofExpression expression = .ok schedule)
    (byDay : expression.dayOfMonth.isAny = false)
    (byWeekday : expression.dayOfWeek.isAny = false) (valid : date.Valid)
    (inSpan : earliestYear < date.year) :
    ∃ onDay onWeekday, { schedule with weekdays := none }.matchesDay date = .ok onDay ∧
      { schedule with days := none }.matchesDay date = .ok onWeekday ∧
      schedule.matchesDay date = .ok (onDay || onWeekday) := by
  rcases exists_day_sets made byDay byWeekday with ⟨⟨days, hasDays⟩, weekdays, hasWeekdays⟩
  rcases matches_day_iff { schedule with weekdays := none } valid inSpan with
    ⟨onDay, dayKnown, daySelected⟩
  rcases matches_day_iff { schedule with days := none } valid inSpan with
    ⟨onWeekday, weekdayKnown, weekdaySelected⟩
  rcases matches_day_iff schedule valid inSpan with ⟨either, known, selected⟩
  have same : either = (onDay || onWeekday) := by
    rw [Bool.eq_iff_iff, Bool.or_eq_true, selected, daySelected, weekdaySelected]
    simp only [SelectsDay, hasDays, hasWeekdays]
  rw [same] at known
  exact ⟨onDay, onWeekday, dayKnown, weekdayKnown, known⟩

end Schedule

end CronSchedule
