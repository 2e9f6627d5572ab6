import CronSchedule.Expression.Basic
import CronSchedule.Expression.Phrase

/-!
# Descriptions

A description states a schedule in English: first the time of day, then the
months, then the days. Unrestricted months and days are not mentioned. When hour
and minute are single values the time is written as on a clock; otherwise
seconds, minutes and hours are described one by one.
-/

namespace CronSchedule

set_option autoImplicit false

def monthNames : List String :=
  ["January", "February", "March", "April", "May", "June", "July", "August", "September",
    "October", "November", "December"]

def weekdayNames : List String :=
  ["Sunday", "Monday", "Tuesday", "Wednesday", "Thursday", "Friday", "Saturday"]

/-- Months have names from 1 to 12 only. -/
def monthName (month : Nat) : Except Fault String :=
  match month with
  | 0 => .error (.unnamedMonth 0)
  | index + 1 =>
      match monthNames[index]? with
      | some name => .ok name
      | none => .error (.unnamedMonth month)

/-- Weekdays repeat every seven days, so every number has a name. -/
def weekdayName (weekday : Nat) : String := weekdayNames.getD (weekday % 7) ""

namespace Description

def numberWord (number : Nat) : String := String.ofList (Numeral.digits number)

/-- A step of one is no step. -/
def every (size : Nat) (unit : String) : Phrase :=
  if size = 1 then ["every", unit] else ["every", numberWord size, unit ++ "s"]

/-- The rule of a field of the clock, which is `none` when it is unrestricted. -/
def unitPhrase (unit : String) : Rule → Option Phrase
  | .any => none
  | .specific value => some ["at", unit, numberWord value]
  | .list values =>
      some ("at" :: (unit ++ "s") :: Phrase.enumeration (values.toList.map numberWord))
  | .range lo hi => some ["every", unit, "from", numberWord lo, "through", numberWord hi]
  | .step size => some (every size unit)
  | .stepRange lo hi size =>
      some (every size unit ++ ["from", numberWord lo, "through", numberWord hi])

/-- Seconds are mentioned even when every second matches. -/
def secondPhrase (second : Rule) : Phrase :=
  (unitPhrase Field.second.name second).getD (every 1 Field.second.name)

def clockWord (numbers : List Nat) : String :=
  String.ofList (List.intercalate [':'] (numbers.map (Numeral.padded 2)))

def clockPhrase (second : Option Rule) (hour minute : Nat) : Phrase :=
  match second with
  | none => ["at", clockWord [hour, minute]]
  | some (.specific second) => ["at", clockWord [hour, minute, second]]
  | some rule => (secondPhrase rule).withComma ++ ["at", clockWord [hour, minute]]

/-- What is said of the seconds. Second 0 alone goes without saying, and then an
unrestricted minute has to be mentioned in its place. -/
def leadingPhrase (second : Option Rule) (minute : Rule) : Option Phrase :=
  match second with
  | some rule =>
      if rule = .specific 0 then everyMinute minute else some (secondPhrase rule)
  | none => everyMinute minute
where
  everyMinute : Rule → Option Phrase
    | .any => some (every 1 Field.minute.name)
    | _ => none

def timePhrase (expression : Expression) : Phrase :=
  match expression.hour, expression.minute with
  | .specific hour, .specific minute => clockPhrase expression.second hour minute
  | hour, minute =>
      Phrase.commaSeparated
        ((leadingPhrase expression.second minute).toList ++
          (unitPhrase Field.minute.name minute).toList ++
          (unitPhrase Field.hour.name hour).toList)

def monthPhrase : Rule → Except Fault Phrase
  | .any => .ok []
  | .specific month => do return ["in", ← monthName month]
  | .list months => do
      let names ← months.toList.mapM monthName
      return "in" :: Phrase.enumeration names
  | .range lo hi => do return ["from", ← monthName lo, "through", ← monthName hi]
  | .step size => .ok (every size "month")
  | .stepRange lo hi size => do
      return every size "month" ++ ["from", ← monthName lo, "through", ← monthName hi]

/-- The rule for days of the month, which is empty when it is unrestricted. -/
def dayOfMonthPhrase : Rule → Phrase
  | .any => []
  | .specific day => ["on", "day", numberWord day, "of", "the", "month"]
  | .list days =>
      "on" :: "days" :: (Phrase.enumeration (days.toList.map numberWord) ++ ["of", "the", "month"])
  | .range lo hi =>
      ["on", "days", numberWord lo, "through", numberWord hi, "of", "the", "month"]
  | .step size => every size "day"
  | .stepRange lo hi size =>
      every size "day" ++
        ["from", "day", numberWord lo, "through", numberWord hi, "of", "the", "month"]

/-- The rule for days of the week, which is empty when it is unrestricted. Steps
are spelled out as the weekdays that they reach. -/
def dayOfWeekPhrase : Rule → Except Fault Phrase
  | .any => .ok []
  | .specific weekday => .ok ["on", weekdayName weekday]
  | .range lo hi => .ok ["on", weekdayName lo, "through", weekdayName hi]
  | rule => do
      let weekdays ← rule.values .dayOfWeek
      return "on" :: Phrase.enumeration (weekdays.toList.map weekdayName)

/-- Two restricted day fields are alternatives: either of them matches a day. -/
def dayPhrase (dayOfMonth dayOfWeek : Phrase) : Phrase :=
  if dayOfMonth = [] ∨ dayOfWeek = [] then dayOfMonth ++ dayOfWeek
  else dayOfMonth ++ "or" :: dayOfWeek

end Description

def Expression.describe (expression : Expression) : Except Fault String := do
  let months ← Description.monthPhrase expression.month
  let weekdays ← Description.dayOfWeekPhrase expression.dayOfWeek
  let days := Description.dayPhrase (Description.dayOfMonthPhrase expression.dayOfMonth) weekdays
  return (Description.timePhrase expression ++ months ++ days).capitalized.text

end CronSchedule
