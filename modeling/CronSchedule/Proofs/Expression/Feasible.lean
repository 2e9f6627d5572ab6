import CronSchedule.Proofs.Expression.Matching

/-!
# Which days an expression can ever select

The weekdays of a month repeat, so a restricted day of the week falls into every
month. Only an expression that restricts the days of the month alone may miss
months: it is impossible when no selected month is ever long enough, and leap only
when 29 February is all that it selects. Every other expression matches in some
month of every year.
-/

namespace CronSchedule

set_option autoImplicit false

/-- The length of a month in the years in which it is longest. -/
def greatestMonthLength (month : Nat) : Nat := monthLength 2000 month

theorem twenty_eight_le_month_length (year : Int) {month : Nat} (inYear : 1 ≤ month ∧ month ≤ 12) :
    28 ≤ monthLength year month := by
  unfold monthLength
  repeat' split
  all_goals omega

theorem month_length_of_not_february (year other : Int) {month : Nat} (plain : month ≠ 2) :
    monthLength year month = monthLength other month := by
  simp only [monthLength, if_neg plain]

theorem month_length_february (year : Int) :
    monthLength year 2 = if IsLeap year then 29 else 28 := by
  simp [monthLength]

theorem month_length_le_greatest (year : Int) (month : Nat) :
    monthLength year month ≤ greatestMonthLength month := by
  by_cases february : month = 2
  · have longest : greatestMonthLength 2 = 29 := by decide
    rw [february, longest, month_length_february]
    split
    · exact Nat.le_refl 29
    · exact Nat.le_succ 28
  · exact Nat.le_of_eq (month_length_of_not_february year 2000 february)

/-- A day that exists in some year exists in all of them, 29 February apart. -/
theorem le_month_length_of_le_greatest (year : Int) {month day : Nat}
    (ever : day ≤ greatestMonthLength month) (plain : ¬(month = 2 ∧ day = 29)) :
    day ≤ monthLength year month := by
  by_cases february : month = 2
  · subst february
    have longest : greatestMonthLength 2 = 29 := by decide
    rw [month_length_february]
    split
    · omega
    · omega
  · rw [month_length_of_not_february year 2000 february]
    exact ever

/-- The gap between leap years is widest around a century that is not leap. -/
theorem exists_leap_year_after (year : Int) :
    ∃ later, year < later ∧ later ≤ year + 8 ∧ IsLeap later := by
  by_cases leap : IsLeap (year / 4 * 4 + 4)
  · exact ⟨year / 4 * 4 + 4, by omega, by omega, leap⟩
  · simp only [IsLeap] at leap
    refine ⟨year / 4 * 4 + 8, by omega, by omega, ?_⟩
    simp only [IsLeap]
    omega

/-- Seven days in a row show all weekdays, and no month is shorter. -/
theorem Date.exists_weekday (year : Int) {month weekday : Nat} (inYear : 1 ≤ month ∧ month ≤ 12)
    (inWeek : weekday ≤ 6) :
    ∃ date : Date, date.year = year ∧ date.month = month ∧ date.Valid ∧
      ((date.dayNumber + 1) % 7).toNat = weekday := by
  have long := twenty_eight_le_month_length year inYear
  have number : ∀ day : Nat, (Date.mk year month day).dayNumber =
      (Date.mk year month 0).dayNumber + day := by
    intro day
    simp only [dayNumber]
    omega
  let before := (Date.mk year month 0).dayNumber
  let day := ((weekday - before - 2) % 7).toNat + 1
  refine ⟨⟨year, month, day⟩, rfl, rfl, ⟨Nat.le_add_left 1 _, ?_⟩, ?_⟩
  · simp only [day]
    omega
  · rw [number]
    simp only [day, before]
    omega

namespace Rule

variable {rule : Rule} {field : Field}

theorem mem_domain_of_selects {value : Nat} (wellFormed : rule.WellFormed field)
    (selected : rule.Selects field value) : value ∈ field.canonicalDomain := by
  obtain ⟨values, known, inDomain⟩ := values_spec wellFormed
  exact inDomain value ((selects_iff known value).mp selected)

/-- Every well formed rule selects something. -/
theorem exists_selects (wellFormed : rule.WellFormed field) :
    ∃ value, rule.Selects field value := by
  rcases exists_mem_values wellFormed with ⟨values, known, value, member⟩
  exact ⟨value, values, known, member⟩

theorem selects_of_any (unrestricted : rule.isAny = true) {value : Nat}
    (member : value ∈ field.canonicalDomain) : rule.Selects field value := by
  cases rule with
  | any =>
      have inDomain := ((Field.mem_canonical_domain_iff field value).mp member).1
      have advances : Rule.any.Advances := trivial
      apply (selects_iff_covers advances value).mpr
      exact ⟨value, inDomain, Field.canonical_of_mem member⟩
  | _ => cases unrestricted

end Rule

namespace Expression

/-- A selected day of a selected month that some year has. -/
def NamesDay (expression : Expression) (month day : Nat) : Prop :=
  expression.month.Selects .month month ∧ expression.dayOfMonth.Selects .dayOfMonth day ∧
    day ≤ greatestMonthLength month

/-- Days are chosen by the days of the month alone, and no year has one of them. -/
def Impossible (expression : Expression) : Prop :=
  expression.dayOfWeek.isAny = true ∧ expression.dayOfMonth.isAny = false ∧
    ∀ month day, ¬expression.NamesDay month day

/-- Days are not chosen by weekdays, and the only one that years have is 29 February. -/
def LeapOnly (expression : Expression) : Prop :=
  ¬expression.Impossible ∧ expression.dayOfWeek.isAny = true ∧
    ∀ month day, expression.NamesDay month day → month = 2 ∧ day = 29

variable {expression : Expression} {month day : Nat}

theorem not_matches_of_impossible (impossible : expression.Impossible) {moment : Moment}
    (valid : moment.Valid) : ¬expression.Matches moment := by
  intro selected
  obtain ⟨anyWeekday, someDay, never⟩ := impossible
  obtain ⟨month, day, _⟩ := selected
  rcases day with ⟨anyDay, _⟩ | ⟨_, day⟩ | ⟨someWeekday, _⟩
  · rw [anyDay] at someDay
    cases someDay
  · have inMonth := Nat.le_trans valid.1.2 (month_length_le_greatest _ _)
    exact never _ _ ⟨month, day, inMonth⟩
  · rw [anyWeekday] at someWeekday
    cases someWeekday

/-- Times of day are always there, so a selected day of a selected month is enough. -/
theorem exists_match_on (wellFormed : expression.WellFormed) {date : Date} (valid : date.Valid)
    (month : expression.month.Selects .month date.month) (day : expression.SelectsDay date) :
    ∃ moment : Moment, moment.date = date ∧ moment.Valid ∧ expression.Matches moment := by
  obtain ⟨hour, hourSelected⟩ := Rule.exists_selects wellFormed.hour
  obtain ⟨minute, minuteSelected⟩ := Rule.exists_selects wellFormed.minute
  have second : ∃ second, second ≤ 59 ∧ expression.SelectsSecond second := by
    cases present : expression.second with
    | none => exact ⟨0, Nat.zero_le 59, by simp only [SelectsSecond, present]⟩
    | some rule =>
        have ruleWellFormed := wellFormed.second rule present
        obtain ⟨second, selected⟩ := Rule.exists_selects ruleWellFormed
        refine ⟨second, (Rule.mem_domain_of_selects ruleWellFormed selected).2, ?_⟩
        simpa only [SelectsSecond, present] using selected
  obtain ⟨second, secondBound, secondSelected⟩ := second
  have hourBound := (Rule.mem_domain_of_selects wellFormed.hour hourSelected).2
  have minuteBound := (Rule.mem_domain_of_selects wellFormed.minute minuteSelected).2
  exact ⟨⟨date, ⟨hour, minute, second⟩⟩, rfl, ⟨valid, hourBound, minuteBound, secondBound⟩,
    month, day, hourSelected, minuteSelected, secondSelected⟩

theorem exists_match_on_weekday (wellFormed : expression.WellFormed)
    (restricted : expression.dayOfWeek.isAny = false)
    (selected : expression.month.Selects .month month) (year : Int) :
    ∃ moment : Moment, (moment.date.year = year ∧ moment.date.month = month) ∧ moment.Valid ∧
      expression.Matches moment := by
  obtain ⟨weekday, weekdaySelected⟩ := Rule.exists_selects wellFormed.dayOfWeek
  have inYear := Rule.mem_domain_of_selects wellFormed.month selected
  have inWeek := Rule.mem_domain_of_selects wellFormed.dayOfWeek weekdaySelected
  obtain ⟨date, sameYear, sameMonth, valid, same⟩ := Date.exists_weekday year inYear inWeek.2
  rw [← sameMonth] at selected
  rw [← same] at weekdaySelected
  obtain ⟨moment, sameDate, found⟩ := exists_match_on wellFormed valid selected
    (Or.inr (Or.inr ⟨restricted, weekdaySelected⟩))
  rw [← sameDate] at sameYear sameMonth
  exact ⟨moment, ⟨sameYear, sameMonth⟩, found⟩

theorem exists_match_on_named_day (wellFormed : expression.WellFormed)
    (anyWeekday : expression.dayOfWeek.isAny = true) (named : expression.NamesDay month day)
    {year : Int} (inMonth : day ≤ monthLength year month) :
    ∃ moment : Moment, (moment.date.year = year ∧ moment.date.month = month) ∧ moment.Valid ∧
      expression.Matches moment := by
  obtain ⟨monthSelected, daySelected, _⟩ := named
  have first := (Rule.mem_domain_of_selects wellFormed.dayOfMonth daySelected).1
  have holds : expression.SelectsDay ⟨year, month, day⟩ := by
    cases days : expression.dayOfMonth.isAny with
    | true => exact Or.inl ⟨days, anyWeekday⟩
    | false => exact Or.inr (Or.inl ⟨days, daySelected⟩)
  have valid : Date.Valid ⟨year, month, day⟩ := ⟨first, inMonth⟩
  obtain ⟨moment, sameDate, found⟩ := exists_match_on wellFormed valid monthSelected holds
  exact ⟨moment, by simp only [sameDate, and_self], found⟩

theorem exists_named_day (wellFormed : expression.WellFormed)
    (possible : ¬expression.Impossible) (anyWeekday : expression.dayOfWeek.isAny = true) :
    ∃ month day, expression.NamesDay month day := by
  cases days : expression.dayOfMonth.isAny with
  | true =>
      obtain ⟨month, selected⟩ := Rule.exists_selects wellFormed.month
      have long := twenty_eight_le_month_length 2000
        (Rule.mem_domain_of_selects wellFormed.month selected)
      have first := Rule.selects_of_any days (show 1 ∈ Field.dayOfMonth.canonicalDomain by decide)
      exact ⟨month, 1, selected, first, Nat.le_trans (by decide) long⟩
  | false =>
      by_contra none
      apply possible
      refine ⟨anyWeekday, days, ?_⟩
      intro month day named
      exact none ⟨month, day, named⟩

/-- Unless it is impossible or leap only, an expression has a month that brings a
match in every year. -/
theorem exists_yearly_month (wellFormed : expression.WellFormed)
    (possible : ¬expression.Impossible) (yearly : ¬expression.LeapOnly) :
    ∃ month, (1 ≤ month ∧ month ≤ 12) ∧ ∀ year, ∃ moment : Moment,
      (moment.date.year = year ∧ moment.date.month = month) ∧ moment.Valid ∧
        expression.Matches moment := by
  cases weekdays : expression.dayOfWeek.isAny with
  | false =>
      obtain ⟨month, selected⟩ := Rule.exists_selects wellFormed.month
      exact ⟨month, Rule.mem_domain_of_selects wellFormed.month selected,
        exists_match_on_weekday wellFormed weekdays selected⟩
  | true =>
      have common : ∃ month day, expression.NamesDay month day ∧ ¬(month = 2 ∧ day = 29) := by
        by_contra none
        apply yearly
        refine ⟨possible, weekdays, ?_⟩
        intro month day named
        by_contra plain
        exact none ⟨month, day, named, plain⟩
      obtain ⟨month, day, named, plain⟩ := common
      refine ⟨month, Rule.mem_domain_of_selects wellFormed.month named.1, ?_⟩
      intro year
      exact exists_match_on_named_day wellFormed weekdays named
        (le_month_length_of_le_greatest year named.2.2 plain)

theorem exists_match_in_leap_year (wellFormed : expression.WellFormed)
    (leapOnly : expression.LeapOnly) {year : Int} (leap : IsLeap year) :
    ∃ moment : Moment, (moment.date.year = year ∧ moment.date.month = 2) ∧ moment.Valid ∧
      expression.Matches moment := by
  obtain ⟨possible, anyWeekday, only⟩ := leapOnly
  obtain ⟨month, day, named⟩ := exists_named_day wellFormed possible anyWeekday
  obtain ⟨rfl, rfl⟩ := only month day named
  apply exists_match_on_named_day wellFormed anyWeekday named
  rw [month_length_february, if_pos leap]

/-- Between one month and the same month a year later every month comes once. -/
theorem exists_match_within_year (wellFormed : expression.WellFormed)
    (possible : ¬expression.Impossible) (yearly : ¬expression.LeapOnly) {start : Moment}
    (valid : start.Valid) :
    ∃ moment : Moment, moment.Valid ∧ expression.Matches moment ∧
      start.monthIndex < moment.monthIndex ∧ moment.monthIndex ≤ start.monthIndex + 12 := by
  obtain ⟨month, inYear, found⟩ := exists_yearly_month wellFormed possible yearly
  have startMonth := Date.valid_month valid.1
  obtain ⟨moment, ⟨sameYear, sameMonth⟩, momentValid, selected⟩ :=
    found (if start.date.month < month then start.date.year else start.date.year + 1)
  refine ⟨moment, momentValid, selected, ?_⟩
  simp only [Moment.monthIndex, Date.monthIndex, sameYear, sameMonth]
  split
  · omega
  · omega

theorem exists_match_within_eight_years (wellFormed : expression.WellFormed)
    (leapOnly : expression.LeapOnly) {start : Moment} (valid : start.Valid) :
    ∃ moment : Moment, moment.Valid ∧ expression.Matches moment ∧
      start.monthIndex < moment.monthIndex ∧ moment.monthIndex ≤ start.monthIndex + 96 := by
  have startMonth := Date.valid_month valid.1
  -- January still has the February of its own year ahead
  obtain ⟨year, after, soon, leap⟩ :=
    exists_leap_year_after (if start.date.month = 1 then start.date.year - 1 else start.date.year)
  obtain ⟨moment, ⟨sameYear, sameMonth⟩, momentValid, selected⟩ :=
    exists_match_in_leap_year wellFormed leapOnly leap
  refine ⟨moment, momentValid, selected, ?_⟩
  simp only [Moment.monthIndex, Date.monthIndex, sameYear, sameMonth]
  split at after
  · omega
  · omega

end Expression

end CronSchedule
