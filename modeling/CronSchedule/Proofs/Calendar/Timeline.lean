import CronSchedule.Proofs.Calendar.DayNumber
import CronSchedule.Zone

/-!
# The count of seconds orders the wall clock

Valid moments and whole numbers of seconds stand in an order preserving one to one
correspondence, under which the representable moments are an interval.
-/

namespace CronSchedule

set_option autoImplicit false

namespace Clock

theorem second_of_day_lt_day {clock : Clock} (valid : clock.Valid) :
    clock.secondOfDay < 86400 := by
  simp only [Valid] at valid
  simp only [secondOfDay]
  omega

theorem second_of_day_lt {first second : Clock} (firstValid : first.Valid)
    (before : first < second) : first.secondOfDay < second.secondOfDay := by
  simp only [Valid] at firstValid
  simp only [lt_iff] at before
  simp only [secondOfDay]
  omega

theorem lt_trichotomy (first second : Clock) :
    first < second ∨ first = second ∨ second < first := by
  obtain ⟨firstHour, firstMinute, firstSecond⟩ := first
  obtain ⟨secondHour, secondMinute, secondSecond⟩ := second
  simp only [lt_iff, Clock.mk.injEq]
  omega

theorem lt_irrefl (clock : Clock) : ¬clock < clock := by
  simp only [lt_iff]
  omega

theorem valid_of_second_of_day {second : Nat} (inDay : second < 86400) :
    (ofSecondOfDay second).Valid := by
  simp only [Valid, ofSecondOfDay]
  omega

end Clock

namespace Moment

theorem lt_trichotomy (first second : Moment) :
    first < second ∨ first = second ∨ second < first := by
  rcases Date.lt_trichotomy first.date second.date with before | same | after
  · exact Or.inl (Or.inl before)
  · rcases Clock.lt_trichotomy first.clock second.clock with before | clock | after
    · exact Or.inl (Or.inr ⟨same, before⟩)
    · obtain ⟨firstDate, firstClock⟩ := first
      obtain ⟨secondDate, secondClock⟩ := second
      exact Or.inr (Or.inl (congrArg₂ Moment.mk same clock))
    · exact Or.inr (Or.inr (Or.inr ⟨same.symm, after⟩))
  · exact Or.inr (Or.inr (Or.inl after))

theorem lt_irrefl (moment : Moment) : ¬moment < moment := by
  rintro (date | ⟨_, clock⟩)
  · exact Date.lt_irrefl moment.date date
  · exact Clock.lt_irrefl moment.clock clock

theorem not_lt_iff_le (first second : Moment) : ¬first < second ↔ second ≤ first := by
  constructor
  · intro notBefore
    rcases lt_trichotomy first second with before | same | after
    · exact absurd before notBefore
    · exact Or.inr same.symm
    · exact Or.inl after
  · intro atMost before
    exact lt_irrefl first (lt_of_lt_of_le before atMost)

theorem lt_or_le (first second : Moment) : first < second ∨ second ≤ first :=
  (Decidable.em (first < second)).imp_right (not_lt_iff_le first second).mp

theorem le_antisymm {first second : Moment} (left : first ≤ second) (right : second ≤ first) :
    first = second := by
  rcases left with before | same
  · exact absurd before ((not_lt_iff_le first second).mpr right)
  · exact same

theorem second_count_lt {first second : Moment} (firstValid : first.Valid)
    (secondValid : second.Valid) (before : first < second) :
    first.secondCount < second.secondCount := by
  have firstDay := Clock.second_of_day_lt_day firstValid.2
  rcases before with date | ⟨date, clock⟩
  · have days := Date.day_number_lt firstValid.1 secondValid.1 date
    simp only [secondCount]
    omega
  · have seconds := Clock.second_of_day_lt firstValid.2 clock
    simp only [secondCount, date]
    omega

theorem lt_iff_second_count_lt {first second : Moment} (firstValid : first.Valid)
    (secondValid : second.Valid) :
    first < second ↔ first.secondCount < second.secondCount := by
  constructor
  · exact second_count_lt firstValid secondValid
  · intro less
    rcases lt_trichotomy first second with before | rfl | after
    · exact before
    · exact absurd less (Int.lt_irrefl _)
    · have more := second_count_lt secondValid firstValid after
      omega

theorem le_iff_second_count_le {first second : Moment} (firstValid : first.Valid)
    (secondValid : second.Valid) :
    first ≤ second ↔ first.secondCount ≤ second.secondCount := by
  rw [← not_lt_iff_le, lt_iff_second_count_lt secondValid firstValid, Int.not_lt]

theorem eq_of_second_count_eq {first second : Moment} (firstValid : first.Valid)
    (secondValid : second.Valid) (same : first.secondCount = second.secondCount) :
    first = second := by
  rcases lt_trichotomy first second with before | equal | after
  · have less := second_count_lt firstValid secondValid before
    omega
  · exact equal
  · have less := second_count_lt secondValid firstValid after
    omega

theorem valid_of_second_count (count : Int) : (ofSecondCount count).Valid := by
  refine ⟨Date.valid_of_day_number _, Clock.valid_of_second_of_day ?_⟩
  omega

theorem second_count_of_second_count (count : Int) : (ofSecondCount count).secondCount = count := by
  simp only [secondCount, ofSecondCount, Date.day_number_of_day_number,
    Clock.second_of_day_of_second_of_day]
  omega

theorem of_second_count_second_count {moment : Moment} (valid : moment.Valid) :
    ofSecondCount moment.secondCount = moment :=
  eq_of_second_count_eq (valid_of_second_count _) valid (second_count_of_second_count _)

theorem date_eq_of_count_div {first second : Moment} (firstValid : first.Valid)
    (secondValid : second.Valid)
    (same : first.secondCount / 86400 = second.secondCount / 86400) :
    first.date = second.date := by
  have firstDay := Clock.second_of_day_lt_day firstValid.2
  have secondDay := Clock.second_of_day_lt_day secondValid.2
  apply Date.eq_of_day_number_eq firstValid.1 secondValid.1
  simp only [secondCount] at same
  omega

theorem year_le_iff {moment : Moment} (valid : moment.Valid) (year : Int) :
    year ≤ moment.date.year ↔ daysBeforeYear year * 86400 ≤ moment.secondCount := by
  have inDay := Clock.second_of_day_lt_day valid.2
  obtain ⟨begun, _, notOver⟩ := Date.day_number_bounds valid.1
  constructor
  · intro later
    have begins := days_before_year_mono later
    simp only [secondCount]
    omega
  · intro reached
    by_contra early
    have ends := days_before_year_mono (Int.not_le.mp early)
    simp only [secondCount] at reached
    omega

/-- A year of the span begins and ends within the representable seconds. -/
theorem representable_iff {moment : Moment} (valid : moment.Valid) :
    moment.Representable ↔ InSpan moment.secondCount := by
  have notAfter := year_le_iff valid (lastYear + 1)
  rw [Representable, InSpan, year_le_iff valid firstYear]
  constructor
  · rintro ⟨_, first, last⟩
    exact ⟨first, by omega⟩
  · rintro ⟨first, last⟩
    exact ⟨valid, first, by omega⟩

theorem representable_of_second_count_iff (count : Int) :
    (ofSecondCount count).Representable ↔ InSpan count := by
  rw [representable_iff (valid_of_second_count count), second_count_of_second_count]

theorem year_le_of_le {first second : Moment} (ordered : first ≤ second) :
    first.date.year ≤ second.date.year := by
  rcases ordered with (date | ⟨date, _⟩) | rfl
  · simp only [Date.lt_iff] at date
    omega
  · rw [date]
  · exact Int.le_refl _

/-- Twelve months make a year. -/
theorem month_index_bounds {moment : Moment} (valid : moment.Valid) :
    moment.date.year * 12 ≤ moment.monthIndex ∧ moment.monthIndex < moment.date.year * 12 + 12 := by
  have month := Date.valid_month valid.1
  simp only [monthIndex, Date.monthIndex]
  omega

theorem month_index_mono {first second : Moment} (firstValid : first.Valid)
    (secondValid : second.Valid) (ordered : first ≤ second) :
    first.monthIndex ≤ second.monthIndex := by
  have firstMonth := Date.valid_month firstValid.1
  have secondMonth := Date.valid_month secondValid.1
  rcases ordered with (date | ⟨date, _⟩) | rfl
  · simp only [Date.lt_iff] at date
    simp only [monthIndex, Date.monthIndex]
    omega
  · simp only [monthIndex, date]
    exact Int.le_refl _
  · exact Int.le_refl _

end Moment

end CronSchedule
