import CronSchedule.Fault
import CronSchedule.Field.Basic
import CronSchedule.ValueSet

/-!
# Rules

A rule says which values of a field match. `Rule.values` is the set of these
values, and `Rule.text` the canonical token that denotes the rule. Rules can be
built by hand with any numbers, so `WellFormed` tells those apart that a token
of the field can denote.
-/

namespace CronSchedule

set_option autoImplicit false

/-- Rules are ordered by form, in the order of the constructors, then by content. -/
inductive Rule where
  /-- Every value of the domain. -/
  | any
  | specific (value : Nat)
  | list (values : ValueSet)
  /-- All values between the bounds, which both match. -/
  | range (lo hi : Nat)
  /-- Every so many values, counted from the least of the domain. -/
  | step (size : Nat)
  /-- Every so many values between the bounds, counted from the first. -/
  | stepRange (lo hi size : Nat)
  deriving DecidableEq, Repr, Ord

namespace Rule

def maxStep : Nat := 65535

/-- The rules that a token of the field can denote. Weekdays are counted by their
canonical names, except by the bounds of a stepped range, which are kept as
written. A list has at least two values, because one value is `specific`. -/
def WellFormed (field : Field) : Rule → Prop
  | .any => True
  | .specific value => value ∈ field.canonicalDomain
  | .list values => 2 ≤ values.toList.length ∧ ∀ value ∈ values, value ∈ field.canonicalDomain
  | .range lo hi => lo ∈ field.canonicalDomain ∧ hi ∈ field.canonicalDomain ∧ lo ≤ hi
  | .step size => 1 ≤ size ∧ size ≤ maxStep
  | .stepRange lo hi size =>
      lo ∈ field.domain ∧ hi ∈ field.domain ∧ lo ≤ hi ∧ 1 ≤ size ∧ size ≤ maxStep

/-- An unrestricted field lets every value match. -/
def isAny : Rule → Bool
  | .any => true
  | _ => false

/-- A set given by steps exists only when the steps advance. -/
def steps (lo hi size : Nat) : Except Fault ValueSet :=
  if size = 0 then .error .zeroStep else .ok (ValueSet.stepping lo hi size)

/-- The matching numbers before the two names of Sunday are made one. -/
def selection (rule : Rule) (domain : Domain) : Except Fault ValueSet :=
  match rule with
  | .any => .ok (ValueSet.stepping domain.lo domain.hi 1)
  | .specific value => .ok (ValueSet.singleton value)
  | .list values => .ok values
  | .range lo hi => .ok (ValueSet.stepping lo hi 1)
  | .step size => steps domain.lo domain.hi size
  | .stepRange lo hi size => steps lo hi size

def values (rule : Rule) (field : Field) : Except Fault ValueSet :=
  (rule.selection field.domain).map fun selected => selected.map field.canonical

/-- A set with one value is written as that value. -/
def ofValues (values : ValueSet) : Rule :=
  match values.toList with
  | [value] => .specific value
  | _ => .list values

def chars : Rule → List Char
  | .any => ['*']
  | .specific value => Numeral.digits value
  | .list values => List.intercalate [','] (values.toList.map Numeral.digits)
  | .range lo hi => Numeral.digits lo ++ '-' :: Numeral.digits hi
  | .step size => '*' :: '/' :: Numeral.digits size
  | .stepRange lo hi size =>
      Numeral.digits lo ++ '-' :: (Numeral.digits hi ++ '/' :: Numeral.digits size)

def text (rule : Rule) : String := String.ofList rule.chars

end Rule

end CronSchedule
