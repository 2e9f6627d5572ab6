import CronSchedule.Proofs.Expression.Feasible

/-!
# Normal forms

A schedule can be said in several ways: a range is a step of one between bounds,
and weekday steps can be spelled out as the weekdays that they reach. The normal
form of an expression settles on one way for each field. It matches the same
moments as the expression.
-/

namespace CronSchedule

set_option autoImplicit false

namespace Rule

/-- The rule in the words of the clock: there an unrestricted unit is a step of one,
and a range is a step of one between bounds. -/
def plain : Rule → Rule
  | .any => .step 1
  | .range lo hi => .stepRange lo hi 1
  | rule => rule

/-- The rule in the words of the week: steps are spelled out as what they reach. -/
def spelled : Rule → Rule
  | .any => .any
  | .specific weekday => .specific weekday
  | .range lo hi => .range lo hi
  | rule =>
      match rule.values .dayOfWeek with
      | .ok weekdays => ofValues weekdays
      | .error _ => rule

variable {rule : Rule} {field : Field}

theorem selects_plain (rule : Rule) (field : Field) (value : Nat) :
    rule.plain.Selects field value ↔ rule.Selects field value := by
  have same : rule.plain.values field = rule.values field := by
    cases rule <;> rfl
  rw [Selects, Selects, same]

theorem is_any_of_values (values : ValueSet) : (ofValues values).isAny = false := by
  unfold ofValues
  split <;> rfl

theorem of_values_selects {values : ValueSet}
    (inDomain : ∀ value ∈ values, value ∈ field.canonicalDomain) (value : Nat) :
    (ofValues values).Selects field value ↔ value ∈ values := by
  have advances : (ofValues values).Advances := by
    unfold ofValues
    split <;> trivial
  have covers : ∀ number, (ofValues values).Covers field.domain number ↔ number ∈ values := by
    intro number
    unfold ofValues
    split
    case h_1 single known =>
        rw [ValueSet.mem_def, known, List.mem_singleton]
        exact Iff.rfl
    case h_2 => exact Iff.rfl
  rw [selects_iff_covers advances]
  constructor
  · intro covered
    rcases covered with ⟨number, numberCovered, same⟩
    have member := (covers number).mp numberCovered
    rwa [← same, Field.canonical_of_mem (inDomain number member)]
  · intro member
    exact ⟨value, (covers value).mpr member, Field.canonical_of_mem (inDomain value member)⟩

theorem spelled_spec (wellFormed : rule.WellFormed .dayOfWeek) :
    rule.spelled.isAny = rule.isAny ∧
      ∀ value, rule.spelled.Selects .dayOfWeek value ↔ rule.Selects .dayOfWeek value := by
  obtain ⟨values, known, inDomain⟩ := values_spec wellFormed
  unfold spelled
  split
  case h_1 => exact ⟨rfl, fun _ => Iff.rfl⟩
  case h_2 => exact ⟨rfl, fun _ => Iff.rfl⟩
  case h_3 => exact ⟨rfl, fun _ => Iff.rfl⟩
  case h_4 restricted _ _ =>
      rw [known]
      refine ⟨?_, ?_⟩
      · rw [is_any_of_values]
        cases rule with
        | any => exact absurd rfl restricted
        | _ => rfl
      · intro value
        rw [selects_iff known]
        exact of_values_selects inDomain value

end Rule

namespace Expression

variable {expression : Expression}

def normal (expression : Expression) : Expression :=
  { second := some (expression.rule .second).plain
    minute := expression.minute.plain
    hour := expression.hour.plain
    dayOfMonth := expression.dayOfMonth
    month := expression.month
    dayOfWeek := expression.dayOfWeek.spelled }

/-- Without a seconds field the rule in force is second 0. -/
theorem selects_second_iff_rule (wellFormed : expression.WellFormed) (second : Nat) :
    expression.SelectsSecond second ↔ (expression.rule .second).Selects .second second := by
  obtain ⟨seconds, known, _⟩ := Rule.values_spec (wellFormed.rule .second)
  rw [Rule.selects_iff known, Schedule.selects_second_iff known]

theorem normal_selects_day_iff (wellFormed : expression.WellFormed) (date : Date) :
    expression.normal.SelectsDay date ↔ expression.SelectsDay date := by
  obtain ⟨sameAny, sameWeekdays⟩ := Rule.spelled_spec wellFormed.dayOfWeek
  simp only [SelectsDay, normal, sameAny, sameWeekdays]

theorem normal_matches_iff (wellFormed : expression.WellFormed) (moment : Moment) :
    expression.normal.Matches moment ↔ expression.Matches moment := by
  have second : expression.normal.SelectsSecond moment.clock.second ↔
      expression.SelectsSecond moment.clock.second := by
    rw [selects_second_iff_rule wellFormed]
    exact Rule.selects_plain _ _ _
  rw [Matches, Matches, normal_selects_day_iff wellFormed, second]
  simp only [normal, Rule.selects_plain]

end Expression

end CronSchedule
