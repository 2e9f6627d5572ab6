import CronSchedule.Text.Numeral

/-!
# The six schedule fields

A schedule constrains six fields of the wall clock. Each has a name, under which
errors and descriptions speak of it, and a closed domain of values.
-/

namespace CronSchedule

set_option autoImplicit false

/-- Fields in the order in which an expression with seconds lists them. -/
inductive Field where
  | second
  | minute
  | hour
  | dayOfMonth
  | month
  | dayOfWeek
  deriving DecidableEq, Repr, Ord

structure Domain where
  lo : Nat
  hi : Nat
  deriving DecidableEq, Repr, Ord

namespace Domain

instance : Membership Nat Domain where
  mem domain value := domain.lo ≤ value ∧ value ≤ domain.hi

theorem mem_iff (value : Nat) (domain : Domain) :
    value ∈ domain ↔ domain.lo ≤ value ∧ value ≤ domain.hi := Iff.rfl

instance (value : Nat) (domain : Domain) : Decidable (value ∈ domain) :=
  decidable_of_iff _ (mem_iff value domain).symm

def text (domain : Domain) : String :=
  String.ofList (Numeral.digits domain.lo ++ '-' :: Numeral.digits domain.hi)

end Domain

namespace Field

def all : List Field := [.second, .minute, .hour, .dayOfMonth, .month, .dayOfWeek]

def name : Field → String
  | .second => "second"
  | .minute => "minute"
  | .hour => "hour"
  | .dayOfMonth => "day of month"
  | .month => "month"
  | .dayOfWeek => "day of week"

/-- The day of week admits both names of Sunday, 0 and 7. -/
def domain : Field → Domain
  | .second | .minute => ⟨0, 59⟩
  | .hour => ⟨0, 23⟩
  | .dayOfMonth => ⟨1, 31⟩
  | .month => ⟨1, 12⟩
  | .dayOfWeek => ⟨0, 7⟩

/-- The domain without the second name of Sunday. -/
def canonicalDomain : Field → Domain
  | .dayOfWeek => ⟨0, 6⟩
  | field => field.domain

/-- Sunday has two names, of which 0 is the one that weekdays are counted by. -/
def canonical (field : Field) (value : Nat) : Nat :=
  if field = .dayOfWeek ∧ value = 7 then 0 else value

end Field

end CronSchedule
