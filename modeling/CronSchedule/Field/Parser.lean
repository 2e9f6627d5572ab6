import CronSchedule.Field.ParseError
import CronSchedule.Field.Rule
import CronSchedule.Text.Cut

/-!
# Reading the token of a field

A token is read by its first separator, in a fixed precedence: a lone star, then
a slash, then a hyphen, then commas. So a slash makes the whole token a stepped
form even when commas or hyphens surround it, and the error speaks of the form
that the precedence chose.
-/

namespace CronSchedule.Rule

set_option autoImplicit false

def parseValue (field : Field) (item : List Char) : Except ParseError Nat :=
  match Numeral.read? item with
  | none => .error (.unreadable field (String.ofList item))
  | some value =>
      if value ∈ field.domain then .ok (field.canonical value)
      else .error (.outOfDomain field (String.ofList item) field.domain)

/-- Two bounds within the domain, the lower one first. Both names of Sunday are
kept apart here, because a range may end at the later one. -/
def parseBounds (field : Field) (token : String) (first second : List Char) :
    Except ParseError (Nat × Nat) :=
  match Numeral.read? first, Numeral.read? second with
  | some lo, some hi =>
      if lo ∈ field.domain ∧ hi ∈ field.domain ∧ lo ≤ hi then .ok (lo, hi)
      else .error (.range field token)
  | _, _ => .error (.range field token)

/-- A range of weekdays that ends at the later Sunday wraps around the week, so
it becomes the set of its days. -/
def ofBounds (field : Field) (lo hi : Nat) : Rule :=
  if field = .dayOfWeek ∧ hi = 7 then
    if lo = 7 then .range 0 0
    else .list (ValueSet.insert 0 (ValueSet.stepping lo 6 1))
  else .range lo hi

def parseStep (field : Field) (token : String) (size : List Char) : Except ParseError Nat :=
  match Numeral.read? size with
  | some size => if 1 ≤ size ∧ size ≤ maxStep then .ok size else .error (.step field token)
  | none => .error (.step field token)

/-- A step applies to a star or to a range. The step is read before the range. -/
def parseStepped (field : Field) (token : String) (base size : List Char) :
    Except ParseError Rule := do
  let size ← parseStep field token size
  if base = ['*'] then return .step size
  match Text.cut? '-' base with
  | some (first, second) =>
      let (lo, hi) ← parseBounds field token first second
      return .stepRange lo hi size
  | none => throw (.unreadable field token)

def parseRange (field : Field) (token : String) (first second : List Char) :
    Except ParseError Rule := do
  let (lo, hi) ← parseBounds field token first second
  return ofBounds field lo hi

/-- Values between commas, of which the leftmost bad one is reported. A token
without a comma is its only item. -/
def parseItems (field : Field) (items : List (List Char)) : Except ParseError Rule := do
  let values ← items.mapM (parseValue field)
  return ofValues (ValueSet.ofList values)

def parse (field : Field) (token : String) : Except ParseError Rule :=
  if token.toList = ['*'] then .ok .any
  else
    match Text.cut? '/' token.toList with
    | some (base, size) => parseStepped field token base size
    | none =>
        match Text.cut? '-' token.toList with
        | some (first, second) => parseRange field token first second
        | none => parseItems field (token.toList.splitOn ',')

end CronSchedule.Rule
