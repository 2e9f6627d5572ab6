import CronSchedule.Proofs.Calendar.Steps

/-!
# Weekdays follow the days

Days are counted by single steps to the next day, across the ends of months, years and
centuries alike. Every valid date of the span is reached so from 1 January 2000, or
reaches it, and the weekday by the three remainders is the one that the number of these
steps gives. Only dates that no calendar shows have no weekday.
-/

namespace CronSchedule.Date

set_option autoImplicit false

/-- So many steps to the next day lead from one date to another. -/
inductive DaysOn : Nat → Date → Date → Prop
  | arrived (date : Date) : DaysOn 0 date date
  | onward {count : Nat} {date next last : Date} (stepped : date.nextDay = .ok next)
      (later : DaysOn count next last) : DaysOn (count + 1) date last

/-- The number of days from one date to another, negative when the other comes first. -/
def Apart (days : Int) (first second : Date) : Prop :=
  0 ≤ days ∧ DaysOn days.toNat first second ∨ days ≤ 0 ∧ DaysOn (-days).toNat second first

/-- 1 January 2000 was a Saturday. -/
def newMillennium : Date := ⟨2000, 1, 1⟩

variable {date first last : Date}

theorem lt_of_day_number_lt (firstValid : first.Valid) (lastValid : last.Valid)
    (before : first.dayNumber < last.dayNumber) : first < last := by
  rcases lt_trichotomy first last with less | same | more
  · exact less
  · rw [same] at before
    exact absurd before (Int.lt_irrefl _)
  · have after := day_number_lt lastValid firstValid more
    omega

theorem lt_latest_of_lt (lastValid : last.Valid) (inSpan : last.year ≤ latestYear)
    (before : date < last) : date < latest := by
  have month := valid_month lastValid
  have day := Nat.le_trans lastValid.2 (month_length_le last.year last.month)
  simp only [lt_iff, latest] at before ⊢
  omega

/-- The steps follow the count of days. The last year needs care, because only its last
day has no next one. -/
theorem days_on_of_day_number {count : Nat} (valid : date.Valid) (lastValid : last.Valid)
    (inSpan : last.year ≤ latestYear) (apart : date.dayNumber + count = last.dayNumber) :
    DaysOn count date last := by
  induction count generalizing date with
  | zero =>
      have same : date = last := eq_of_day_number_eq valid lastValid (by omega)
      rw [same]
      exact DaysOn.arrived last
  | succ count induction =>
      have before : date < last := lt_of_day_number_lt valid lastValid (by omega)
      obtain ⟨next, stepped, nextValid, number⟩ :=
        next_day_spec valid (lt_latest_of_lt lastValid inSpan before)
      apply DaysOn.onward stepped
      apply induction nextValid
      omega

theorem apart_day_number (firstValid : first.Valid) (firstInSpan : first.year ≤ latestYear)
    (lastValid : last.Valid) (lastInSpan : last.year ≤ latestYear) :
    Apart (last.dayNumber - first.dayNumber) first last := by
  rcases Int.le_total first.dayNumber last.dayNumber with ordered | ordered
  · apply Or.inl
    refine ⟨by omega, days_on_of_day_number firstValid lastValid lastInSpan ?_⟩
    omega
  · apply Or.inr
    refine ⟨by omega, days_on_of_day_number lastValid firstValid firstInSpan ?_⟩
    omega

theorem weekday_eq (valid : date.Valid) (lower : earliestYear < date.year) :
    date.weekday = .ok ((date.dayNumber + 1) % 7).toNat := by
  rw [weekday, if_pos valid, if_pos lower, weekday_number_eq valid]

theorem weekday_eq_error_iff (lower : earliestYear < date.year) :
    date.weekday = .error (.invalidDate date.year date.month date.day) ↔ ¬date.Valid := by
  constructor
  · intro refused valid
    rw [weekday_eq valid lower] at refused
    cases refused
  · intro invalid
    rw [weekday, if_neg invalid]

theorem weekday_next_day (valid : date.Valid) (lower : earliestYear < date.year)
    (upper : date.year < latestYear) :
    ∃ next weekday, date.nextDay = .ok next ∧ date.weekday = .ok weekday ∧
      next.weekday = .ok ((weekday + 1) % 7) := by
  obtain ⟨next, stepped, nextValid, number⟩ := next_day_spec valid (lt_latest_of_year upper)
  have nextLower : earliestYear < next.year := by
    have later := lt_next_day stepped
    simp only [lt_iff] at later
    omega
  refine ⟨next, _, stepped, weekday_eq valid lower, ?_⟩
  rw [weekday_eq nextValid nextLower, number]
  congr 1
  omega

/-- The weekday of a valid date is that of 1 January 2000, moved on by the number of days
between them, and the next day has the next weekday. A date without a weekday is one that
no calendar shows. -/
theorem weekday_follows_days (date : Date) (lower : earliestYear < date.year)
    (upper : date.year ≤ latestYear) :
    (date.Valid → ∃ days, Apart days newMillennium date ∧
      date.weekday = .ok ((6 + days) % 7).toNat) ∧
      (date.Valid → date.year < latestYear → ∃ next weekday, date.nextDay = .ok next ∧
        date.weekday = .ok weekday ∧ next.weekday = .ok ((weekday + 1) % 7)) ∧
      (date.weekday = .error (.invalidDate date.year date.month date.day) ↔ ¬date.Valid) := by
  refine ⟨?_, fun valid => weekday_next_day valid lower, weekday_eq_error_iff lower⟩
  intro valid
  have anchorValid : newMillennium.Valid := by decide
  have anchorInSpan : newMillennium.year ≤ latestYear := by decide
  have anchor : newMillennium.dayNumber = 730119 := by decide
  refine ⟨_, apart_day_number anchorValid anchorInSpan valid upper, ?_⟩
  rw [weekday_eq valid lower, anchor]
  congr 2
  omega

/-- A leap day long before year zero, and one that the next century year does not have. -/
theorem weekday_follows_days_before_year_zero :
    let leapDay : Date := ⟨-400, 2, 29⟩
    let missing : Date := ⟨-300, 2, 29⟩
    earliestYear < leapDay.year ∧ leapDay.year ≤ latestYear ∧ leapDay.Valid ∧
      earliestYear < missing.year ∧ missing.year ≤ latestYear ∧ ¬missing.Valid ∧
      (∃ days, Apart days newMillennium leapDay ∧
        leapDay.weekday = .ok ((6 + days) % 7).toNat) ∧
      (∃ next weekday, leapDay.nextDay = .ok next ∧ leapDay.weekday = .ok weekday ∧
        next.weekday = .ok ((weekday + 1) % 7)) ∧
      missing.weekday = .error (.invalidDate (-300) 2 29) := by
  intro leapDay missing
  have lower : earliestYear < leapDay.year := by decide
  have upper : leapDay.year ≤ latestYear := by decide
  have valid : leapDay.Valid := by decide
  have missingLower : earliestYear < missing.year := by decide
  have missingUpper : missing.year ≤ latestYear := by decide
  have invalid : ¬missing.Valid := by decide
  obtain ⟨counted, stepped, _⟩ := weekday_follows_days leapDay lower upper
  obtain ⟨_, _, refused⟩ := weekday_follows_days missing missingLower missingUpper
  exact ⟨lower, upper, valid, missingLower, missingUpper, invalid, counted valid,
    stepped valid (by decide), refused.mpr invalid⟩

end CronSchedule.Date
