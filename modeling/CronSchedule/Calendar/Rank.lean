import CronSchedule.Calendar.Moment

/-!
# Ranks of moments

A walk over the wall clock only goes forward, and it stops at the end of the
representable years. The rank of a moment turns this into a number: it grows
along the field-wise order wherever one of the two moments is valid, and the
ranks of representable moments are bounded. So every such walk ends.
-/

namespace CronSchedule.Moment

set_option autoImplicit false

/-- A field as a digit. A field beyond its bound counts as one more than the
bound, so that it cannot carry into the field before it. -/
def digit (bound field : Nat) : Nat := min field (bound + 1)

theorem digit_le (bound field : Nat) : digit bound field ≤ bound + 1 := Nat.min_le_right _ _

theorem digit_lt_of_lt {bound first second : Nat} (bounded : first ≤ bound ∨ second ≤ bound)
    (before : first < second) : digit bound first < digit bound second := by
  unfold digit
  omega

def ranksPerYear : Int := 14 * 33 * 25 * 61 * 61

def rank (moment : Moment) : Int :=
  ((((moment.date.year * 14 + digit 12 moment.date.month) * 33 + digit 31 moment.date.day) * 25 +
    digit 23 moment.clock.hour) * 61 + digit 59 moment.clock.minute) * 61 +
    digit 59 moment.clock.second

def Bounded (moment : Moment) : Prop :=
  moment.date.month ≤ 12 ∧ moment.date.day ≤ 31 ∧
    moment.clock.hour ≤ 23 ∧ moment.clock.minute ≤ 59 ∧ moment.clock.second ≤ 59

theorem bounded_of_valid {moment : Moment} (valid : moment.Valid) : moment.Bounded :=
  ⟨(Date.valid_month valid.1).2,
    Nat.le_trans valid.1.2 (month_length_le moment.date.year moment.date.month), valid.2⟩

/-- At the first field in which two moments differ, the digit of the lesser one is
less as soon as either of them is bounded. The digits after it do not matter. -/
theorem rank_lt_of_lt {first second : Moment} (bounded : first.Bounded ∨ second.Bounded)
    (before : first < second) : first.rank < second.rank := by
  have monthLe := digit_le 12 first.date.month
  have dayLe := digit_le 31 first.date.day
  have hourLe := digit_le 23 first.clock.hour
  have minuteLe := digit_le 59 first.clock.minute
  have secondLe := digit_le 59 first.clock.second
  simp only [lt_iff, Date.lt_iff, Clock.lt_iff] at before
  rcases before with (year | ⟨year, month | ⟨month, day⟩⟩) |
    ⟨date, hour | ⟨hour, minute | ⟨minute, second⟩⟩⟩
  · simp only [rank]
    omega
  · have less := digit_lt_of_lt (bounded.imp And.left And.left) month
    simp only [rank, year]
    omega
  · have less := digit_lt_of_lt (bounded.imp (·.2.1) (·.2.1)) day
    simp only [rank, year, month]
    omega
  · have less := digit_lt_of_lt (bounded.imp (·.2.2.1) (·.2.2.1)) hour
    simp only [rank, date]
    omega
  · have less := digit_lt_of_lt (bounded.imp (·.2.2.2.1) (·.2.2.2.1)) minute
    simp only [rank, date, hour]
    omega
  · have less := digit_lt_of_lt (bounded.imp (·.2.2.2.2) (·.2.2.2.2)) second
    simp only [rank, date, hour, minute]
    omega

theorem rank_le_of_le {first second : Moment} (valid : second.Valid) (before : first ≤ second) :
    first.rank ≤ second.rank := by
  rcases before with before | rfl
  · exact Int.le_of_lt (rank_lt_of_lt (Or.inr (bounded_of_valid valid)) before)
  · exact Int.le_refl _

theorem rank_lt_of_representable {moment : Moment} (representable : moment.Representable) :
    moment.rank < (lastYear + 1) * ranksPerYear := by
  have year := representable.2.2
  have monthLe := digit_le 12 moment.date.month
  have dayLe := digit_le 31 moment.date.day
  have hourLe := digit_le 23 moment.clock.hour
  have minuteLe := digit_le 59 moment.clock.minute
  have secondLe := digit_le 59 moment.clock.second
  simp only [rank, ranksPerYear]
  omega

end CronSchedule.Moment
