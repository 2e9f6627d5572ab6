import CronSchedule.Field.Basic

/-!
# Why an expression is refused

Each error names the field at fault and quotes the offending text; a number outside
the domain comes with the domain. Errors are ordered by cause, in the order of the
constructors, then by field, then by text, then by domain.
-/

namespace CronSchedule

set_option autoImplicit false

inductive ParseError where
  /-- An expression has five or six fields, but this many were found. -/
  | fieldCount (found : Nat)
  /-- A bound is no number of the domain, or the first exceeds the second. -/
  | range (field : Field) (token : String)
  /-- A step is no number from 1 to 65535. -/
  | step (field : Field) (token : String)
  /-- A number lies outside the domain of the field, which is told with it. -/
  | outOfDomain (field : Field) (item : String) (domain : Domain)
  /-- Text of none of the known forms. -/
  | unreadable (field : Field) (item : String)
  deriving DecidableEq, Repr, Ord

def ParseError.message : ParseError → String
  | .fieldCount found => "expected 5 or 6 fields, found " ++ String.ofList (Numeral.digits found)
  | .range field token => "invalid " ++ field.name ++ " range: " ++ token
  | .step field token => "invalid " ++ field.name ++ " step: " ++ token
  | .outOfDomain field item domain =>
      field.name ++ " value " ++ item ++ " is out of range " ++ domain.text
  | .unreadable field item => "unparsable " ++ field.name ++ " token: " ++ item

end CronSchedule
