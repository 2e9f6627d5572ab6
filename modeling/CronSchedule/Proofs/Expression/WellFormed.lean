import CronSchedule.Proofs.Expression.Roles
import CronSchedule.Proofs.Field.Canonical

/-!
# Accepted expressions are well formed

An expression comes out of the reader only with every rule well formed under its
own field. This is all that later results need to know about accepted texts.
-/

namespace CronSchedule

set_option autoImplicit false

/-- Each rule is well formed under its field. -/
structure Expression.WellFormed (expression : Expression) : Prop where
  second : ∀ rule, expression.second = some rule → rule.WellFormed .second
  minute : expression.minute.WellFormed .minute
  hour : expression.hour.WellFormed .hour
  dayOfMonth : expression.dayOfMonth.WellFormed .dayOfMonth
  month : expression.month.WellFormed .month
  dayOfWeek : expression.dayOfWeek.WellFormed .dayOfWeek

namespace FieldTokens

theorem well_formed_of_parse {tokens : FieldTokens} {expression : Expression}
    (read : tokens.parse = .ok expression) : expression.WellFormed := by
  have accepted := parse_eq_ok_iff.mp read
  have formed : ∀ pair ∈ tokens.toList, (expression.rule pair.1).WellFormed pair.1 :=
    fun pair member => Rule.well_formed_of_parse (accepted.2 pair member)
  have second : ∀ rule, expression.second = some rule → rule.WellFormed .second := by
    intro rule found
    have written : tokens.second.isSome = true := by
      rw [accepted.1, Expression.hasSeconds, found]
      rfl
    rcases Option.isSome_iff_exists.mp written with ⟨token, known⟩
    have inForce := formed (.second, token) (by simp [toList, known])
    rwa [Expression.rule, found, Option.getD_some] at inForce
  exact
    { second := second
      minute := formed (.minute, tokens.minute) (by simp [toList])
      hour := formed (.hour, tokens.hour) (by simp [toList])
      dayOfMonth := formed (.dayOfMonth, tokens.dayOfMonth) (by simp [toList])
      month := formed (.month, tokens.month) (by simp [toList])
      dayOfWeek := formed (.dayOfWeek, tokens.dayOfWeek) (by simp [toList]) }

end FieldTokens

namespace Expression

theorem well_formed_of_parse {text : String} {expression : Expression}
    (accepted : parse text = .ok expression) : expression.WellFormed := by
  obtain ⟨tokens, _, read⟩ := bind_eq_ok_iff.mp accepted
  exact FieldTokens.well_formed_of_parse read

/-- The rule in force for a field is well formed, second 0 included. -/
theorem WellFormed.rule {expression : Expression} (wellFormed : expression.WellFormed)
    (field : Field) : (expression.rule field).WellFormed field := by
  cases field with
  | second =>
      cases known : expression.second with
      | none =>
          simp only [Expression.rule, known, Option.getD_none]
          exact ⟨Nat.zero_le _, Nat.zero_le _⟩
      | some rule =>
          simp only [Expression.rule, known, Option.getD_some]
          exact wellFormed.second rule known
  | minute => exact wellFormed.minute
  | hour => exact wellFormed.hour
  | dayOfMonth => exact wellFormed.dayOfMonth
  | month => exact wellFormed.month
  | dayOfWeek => exact wellFormed.dayOfWeek

end Expression

end CronSchedule
