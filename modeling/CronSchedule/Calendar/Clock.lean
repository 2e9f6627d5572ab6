/-!
# Times of day

A `Clock` is the time of day to the second. Each step gives the next second, or
the beginning of the next minute or hour, of the same day; it is `none` when
that would be midnight of the next day.
-/

namespace CronSchedule

set_option autoImplicit false

structure Clock where
  hour : Nat
  minute : Nat
  second : Nat
  deriving DecidableEq, Repr

namespace Clock

def midnight : Clock := ⟨0, 0, 0⟩

/-- There are no leap seconds on the clock. -/
def Valid (clock : Clock) : Prop :=
  clock.hour ≤ 23 ∧ clock.minute ≤ 59 ∧ clock.second ≤ 59

instance (clock : Clock) : Decidable clock.Valid := by
  unfold Valid
  infer_instance

instance : LT Clock where
  lt first second :=
    first.hour < second.hour ∨ first.hour = second.hour ∧
      (first.minute < second.minute ∨
        first.minute = second.minute ∧ first.second < second.second)

theorem lt_iff (first second : Clock) :
    first < second ↔
      first.hour < second.hour ∨ first.hour = second.hour ∧
        (first.minute < second.minute ∨
          first.minute = second.minute ∧ first.second < second.second) := Iff.rfl

instance (first second : Clock) : Decidable (first < second) :=
  decidable_of_iff _ (lt_iff first second).symm

theorem lt_trans {first second third : Clock} (left : first < second) (right : second < third) :
    first < third := by
  simp only [lt_iff] at left right ⊢
  omega

def secondOfDay (clock : Clock) : Nat :=
  clock.hour * 3600 + clock.minute * 60 + clock.second

def ofSecondOfDay (second : Nat) : Clock :=
  ⟨second / 3600, second / 60 % 60, second % 60⟩

theorem second_of_day_of_second_of_day (second : Nat) :
    (ofSecondOfDay second).secondOfDay = second := by
  simp only [secondOfDay, ofSecondOfDay]
  omega

def nextHour? (clock : Clock) : Option Clock :=
  if clock.hour < 23 then some ⟨clock.hour + 1, 0, 0⟩ else none

def nextMinute? (clock : Clock) : Option Clock :=
  if clock.minute < 59 then some ⟨clock.hour, clock.minute + 1, 0⟩ else clock.nextHour?

def nextSecond? (clock : Clock) : Option Clock :=
  if clock.second < 59 then some ⟨clock.hour, clock.minute, clock.second + 1⟩
  else clock.nextMinute?

theorem lt_next_hour {clock next : Clock} (stepped : clock.nextHour? = some next) :
    clock < next := by
  unfold nextHour? at stepped
  split at stepped <;> simp only [Option.some.injEq, reduceCtorEq] at stepped
  subst stepped
  exact Or.inl (Nat.lt_succ_self _)

theorem lt_next_minute {clock next : Clock} (stepped : clock.nextMinute? = some next) :
    clock < next := by
  unfold nextMinute? at stepped
  split at stepped
  case isTrue =>
      obtain rfl := Option.some.inj stepped
      exact Or.inr ⟨rfl, Or.inl (Nat.lt_succ_self _)⟩
  case isFalse => exact lt_next_hour stepped

theorem lt_next_second {clock next : Clock} (stepped : clock.nextSecond? = some next) :
    clock < next := by
  unfold nextSecond? at stepped
  split at stepped
  case isTrue =>
      obtain rfl := Option.some.inj stepped
      exact Or.inr ⟨rfl, Or.inr ⟨rfl, Nat.lt_succ_self _⟩⟩
  case isFalse => exact lt_next_minute stepped

end Clock

end CronSchedule
