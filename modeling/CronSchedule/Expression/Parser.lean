import CronSchedule.Expression.Basic
import CronSchedule.Field.Parser
import CronSchedule.Text.Blank

/-!
# Reading expressions

The words of a text are the tokens of its fields, from left to right: five
without seconds, six with seconds in front. Each token is read under its own
field, and the leftmost token that is refused decides the error. Blanks only
separate, so the result depends on the words alone.
-/

namespace CronSchedule

set_option autoImplicit false

/-- One token for each field; the one for seconds may be missing. -/
structure FieldTokens where
  second : Option String
  minute : String
  hour : String
  dayOfMonth : String
  month : String
  dayOfWeek : String
  deriving DecidableEq, Repr

namespace FieldTokens

/-- Assigns fields to tokens by their number and position. -/
def ofList : List String → Except ParseError FieldTokens
  | [minute, hour, dayOfMonth, month, dayOfWeek] =>
      .ok ⟨none, minute, hour, dayOfMonth, month, dayOfWeek⟩
  | [second, minute, hour, dayOfMonth, month, dayOfWeek] =>
      .ok ⟨some second, minute, hour, dayOfMonth, month, dayOfWeek⟩
  | tokens => .error (.fieldCount tokens.length)

def ofText (text : String) : Except ParseError FieldTokens :=
  ofList ((Text.words text.toList).map String.ofList)

def toList (tokens : FieldTokens) : List (Field × String) :=
  (tokens.second.toList.map fun token => (Field.second, token)) ++
    [(.minute, tokens.minute), (.hour, tokens.hour), (.dayOfMonth, tokens.dayOfMonth),
      (.month, tokens.month), (.dayOfWeek, tokens.dayOfWeek)]

def parseOptional (field : Field) : Option String → Except ParseError (Option Rule)
  | none => .ok none
  | some token => (Rule.parse field token).map some

def parse (tokens : FieldTokens) : Except ParseError Expression := do
  let second ← parseOptional .second tokens.second
  let minute ← Rule.parse .minute tokens.minute
  let hour ← Rule.parse .hour tokens.hour
  let dayOfMonth ← Rule.parse .dayOfMonth tokens.dayOfMonth
  let month ← Rule.parse .month tokens.month
  let dayOfWeek ← Rule.parse .dayOfWeek tokens.dayOfWeek
  return ⟨second, minute, hour, dayOfMonth, month, dayOfWeek⟩

end FieldTokens

def Expression.parse (text : String) : Except ParseError Expression := do
  let tokens ← FieldTokens.ofText text
  tokens.parse

end CronSchedule
