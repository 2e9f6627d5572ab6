import CronSchedule.Text.Numeral

/-!
# Faults

A fault is a request outside what the calendar, a rule or the representable
time line can answer. Expressions that were read from text never meet one; rules
and moments built by hand can. Only the two calendar faults have a text.
-/

namespace CronSchedule

set_option autoImplicit false

inductive Fault where
  /-- The length of a month that no year has was asked for. -/
  | invalidMonth (month : Nat)
  /-- The weekday of a date that no calendar shows was asked for. -/
  | invalidDate (year : Int) (month day : Nat)
  /-- A year beyond the supported span of years would be needed. -/
  | yearLimit
  /-- A step of zero never advances. -/
  | zeroStep
  /-- A month without a name was to be described. -/
  | unnamedMonth (month : Nat)
  /-- An instant has no representable local time. -/
  | localTimeLimit
  deriving DecidableEq, Repr

/-- Years are written with four places and months and days with two. -/
def Fault.message? : Fault → Option String
  | .invalidMonth month => some ("Invalid month: " ++ String.ofList (Numeral.digits month))
  | .invalidDate year month day =>
      some ("Invalid date: " ++ String.ofList (Numeral.paddedInt 4 year ++ '-' ::
        (Numeral.padded 2 month ++ '-' :: Numeral.padded 2 day)))
  | _ => none

end CronSchedule
