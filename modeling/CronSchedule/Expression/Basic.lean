import CronSchedule.Field.Rule

/-!
# Schedule expressions

An expression gives a rule for each of the six fields. The seconds field may be
left out; then only second 0 matches. `Expression.text` is the canonical text,
which leaves the seconds field out exactly when the expression does.
-/

namespace CronSchedule

set_option autoImplicit false

/-- Expressions are ordered field by field, and those without seconds come first. -/
structure Expression where
  second : Option Rule
  minute : Rule
  hour : Rule
  dayOfMonth : Rule
  month : Rule
  dayOfWeek : Rule
  deriving DecidableEq, Repr, Ord

namespace Expression

def hasSeconds (expression : Expression) : Bool := expression.second.isSome

def rule (expression : Expression) : Field → Rule
  | .second => expression.second.getD (.specific 0)
  | .minute => expression.minute
  | .hour => expression.hour
  | .dayOfMonth => expression.dayOfMonth
  | .month => expression.month
  | .dayOfWeek => expression.dayOfWeek

/-- The rules that the expression spells out, in their order. -/
def writtenRules (expression : Expression) : List Rule :=
  expression.second.toList ++
    [expression.minute, expression.hour, expression.dayOfMonth, expression.month,
      expression.dayOfWeek]

/-- The canonical text: the tokens of the written rules with one space between. -/
def text (expression : Expression) : String :=
  String.ofList (List.intercalate [' '] (expression.writtenRules.map Rule.chars))

end Expression

end CronSchedule
