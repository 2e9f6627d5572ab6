import CronSchedule.Proofs.Calendar.Timeline

/-!
# Steps reach the next beginning of a unit

From a valid moment before the last year of the span every step succeeds, and the step
to the next day also from every date of that year but its last. The steps to the next
second, minute, hour and day land on the next multiple of their unit in the count of
seconds, and the step to the next month on the first moment of it. Moments before the
beginning of the next unit share the unit in view.
-/

namespace CronSchedule

set_option autoImplicit false

namespace Date

theorem month_length_january (year : Int) : monthLength year 1 = 31 := by
  simp [monthLength]

/-- The last date of the span, which alone has no date after it. -/
def latest : Date := ⟨latestYear, 12, 31⟩

theorem lt_latest_of_year {date : Date} (inSpan : date.year < latestYear) : date < latest :=
  Or.inl inSpan

theorem next_month_spec {date : Date} (valid : date.Valid)
    (inSpan : date.month < 12 ∨ date.year < latestYear) :
    ∃ next, date.nextMonth = .ok next ∧ next.Valid ∧ next.day = 1 ∧
      next.monthIndex = date.monthIndex + 1 ∧
      next.dayNumber + date.day =
        date.dayNumber + monthLength date.year date.month + 1 := by
  obtain ⟨low, high⟩ := valid_month valid
  have own : daysBeforeMonth date.year (date.month + 1) =
      daysBeforeMonth date.year date.month + monthLength date.year date.month := rfl
  by_cases before : date.month < 12
  · have days : 0 < monthLength date.year (date.month + 1) :=
      (month_length_pos_iff date.year (date.month + 1)).mpr (by omega)
    refine ⟨⟨date.year, date.month + 1, 1⟩, ?_, ⟨Nat.le_refl 1, days⟩, rfl, ?_, ?_⟩
    · rw [nextMonth, if_pos before]
    · simp only [monthIndex]
      omega
    · simp only [dayNumber]
      omega
  · obtain december : date.month = 12 := by omega
    have years := days_before_year_succ date.year
    have january : daysBeforeMonth (date.year + 1) 1 = 0 := by
      simp [daysBeforeMonth, monthLength]
    refine ⟨⟨date.year + 1, 1, 1⟩, ?_, ⟨Nat.le_refl 1, ?_⟩, rfl, ?_, ?_⟩
    · rw [nextMonth, if_neg before, if_pos (inSpan.resolve_left before)]
    · simp only [month_length_january]
      omega
    · simp only [monthIndex]
      omega
    · rw [december] at own
      simp only [dayNumber, december, january, years, own]
      omega

theorem next_day_spec {date : Date} (valid : date.Valid) (inSpan : date < latest) :
    ∃ next, date.nextDay = .ok next ∧ next.Valid ∧ next.dayNumber = date.dayNumber + 1 := by
  have known : daysInMonth date.year date.month = .ok (monthLength date.year date.month) :=
    if_pos (valid_month valid)
  by_cases inside : date.day < monthLength date.year date.month
  · refine ⟨{ date with day := date.day + 1 }, ?_, ⟨Nat.le_add_left 1 _, inside⟩, ?_⟩
    · simp only [nextDay, known, if_pos inside]
    · simp only [dayNumber]
      omega
  · have last : date.day = monthLength date.year date.month := by
      have upper := valid.2
      omega
    have notOver : date.month < 12 ∨ date.year < latestYear := by
      by_contra beyond
      have december : date.month = 12 := by
        have month := valid_month valid
        omega
      have days : monthLength date.year 12 = 31 := by simp [monthLength]
      rw [december, days] at last
      simp only [lt_iff, latest] at inSpan
      omega
    obtain ⟨next, stepped, nextValid, _, _, number⟩ := next_month_spec valid notOver
    refine ⟨next, ?_, nextValid, by omega⟩
    simp only [nextDay, known, if_neg inside, stepped]

end Date

namespace Moment

/-- A step to a multiple of a unit in the count of seconds. -/
def Reaches (count : Int) (outcome : Except Fault Moment) : Prop :=
  ∃ next, outcome = .ok next ∧ next.Valid ∧ next.secondCount = count

variable {moment : Moment}

theorem next_day_reaches (valid : moment.Valid) (inSpan : moment.date.year < latestYear) :
    Reaches ((moment.secondCount / 86400 + 1) * 86400) moment.nextDay := by
  obtain ⟨date, stepped, dateValid, number⟩ :=
    Date.next_day_spec valid.1 (Date.lt_latest_of_year inSpan)
  have inDay := Clock.second_of_day_lt_day valid.2
  refine ⟨midnight date, ?_, ⟨dateValid, Nat.zero_le _, Nat.zero_le _, Nat.zero_le _⟩, ?_⟩
  · rw [nextDay, stepped]
    rfl
  · simp only [secondCount, midnight, Clock.secondOfDay, Clock.midnight, number]
    simp only [Clock.secondOfDay] at inDay
    omega

theorem next_hour_reaches (valid : moment.Valid) (inSpan : moment.date.year < latestYear) :
    Reaches ((moment.secondCount / 3600 + 1) * 3600) moment.nextHour := by
  obtain ⟨_, minuteBound, secondBound⟩ := valid.2
  unfold nextHour Clock.nextHour?
  split
  case isTrue before =>
      refine ⟨_, rfl, ⟨valid.1, Nat.succ_le_of_lt before, Nat.zero_le _, Nat.zero_le _⟩, ?_⟩
      simp only [secondCount, Clock.secondOfDay]
      omega
  case isFalse last =>
      obtain ⟨next, stepped, nextValid, count⟩ := next_day_reaches valid inSpan
      refine ⟨next, stepped, nextValid, ?_⟩
      simp only [secondCount, Clock.secondOfDay] at count ⊢
      omega

theorem next_minute_reaches (valid : moment.Valid) (inSpan : moment.date.year < latestYear) :
    Reaches ((moment.secondCount / 60 + 1) * 60) moment.nextMinute := by
  obtain ⟨hourBound, _, secondBound⟩ := valid.2
  unfold nextMinute Clock.nextMinute?
  split
  case isTrue before =>
      refine ⟨_, rfl, ⟨valid.1, hourBound, Nat.succ_le_of_lt before, Nat.zero_le _⟩, ?_⟩
      simp only [secondCount, Clock.secondOfDay]
      omega
  case isFalse last =>
      obtain ⟨next, stepped, nextValid, count⟩ := next_hour_reaches valid inSpan
      refine ⟨next, stepped, nextValid, ?_⟩
      simp only [secondCount, Clock.secondOfDay] at count ⊢
      omega

theorem next_second_reaches (valid : moment.Valid) (inSpan : moment.date.year < latestYear) :
    Reaches (moment.secondCount + 1) moment.nextSecond := by
  obtain ⟨hourBound, minuteBound, _⟩ := valid.2
  unfold nextSecond Clock.nextSecond?
  split
  case isTrue before =>
      refine ⟨_, rfl, ⟨valid.1, hourBound, minuteBound, Nat.succ_le_of_lt before⟩, ?_⟩
      simp only [secondCount, Clock.secondOfDay]
      omega
  case isFalse last =>
      obtain ⟨next, stepped, nextValid, count⟩ := next_minute_reaches valid inSpan
      refine ⟨next, stepped, nextValid, ?_⟩
      simp only [secondCount, Clock.secondOfDay] at count ⊢
      omega

/-- The first moment of the next month comes before all others of that month. -/
theorem next_month_spec (valid : moment.Valid) (inSpan : moment.date.year < latestYear) :
    ∃ next, moment.nextMonth = .ok next ∧ next.Valid ∧
      next.monthIndex = moment.monthIndex + 1 ∧
      ∀ other : Moment, other.Valid → next.monthIndex ≤ other.monthIndex → next ≤ other := by
  obtain ⟨date, stepped, dateValid, first, index, _⟩ :=
    Date.next_month_spec valid.1 (Or.inr inSpan)
  refine ⟨midnight date, ?_, ⟨dateValid, Nat.zero_le _, Nat.zero_le _, Nat.zero_le _⟩, index, ?_⟩
  · rw [nextMonth, stepped]
    rfl
  · intro other otherValid reached
    have month := Date.valid_month dateValid
    have otherMonth := Date.valid_month otherValid.1
    have otherDay := otherValid.1.1
    apply (not_lt_iff_le other (midnight date)).mp
    intro before
    rcases before with earlier | ⟨_, earlier⟩
    · simp only [monthIndex, Date.monthIndex, midnight] at reached
      simp only [Date.lt_iff, midnight] at earlier
      omega
    · simp only [Clock.lt_iff, midnight, Clock.midnight] at earlier
      omega

theorem month_index_next_day {next : Moment} (valid : moment.Valid) (nextValid : next.Valid)
    (stepped : moment.nextDay = .ok next) : next.monthIndex ≤ moment.monthIndex + 1 := by
  have month := Date.valid_month valid.1
  have nextMonth := Date.valid_month nextValid.1
  simp only [monthIndex, Date.monthIndex]
  rcases Date.next_day_cases (date_of_next_day stepped) with crossed | ⟨same, _⟩
  · have rank := Date.month_rank_next_month crossed
    simp only [Date.monthRank] at rank
    omega
  · simp only [same]
    omega

/-- Until the midnight that ends the day one month at most begins. -/
theorem month_index_until_midnight {other : Moment} (valid : moment.Valid)
    (otherValid : other.Valid) (inSpan : moment.date.year < latestYear)
    (inTime : other.secondCount ≤ (moment.secondCount / 86400 + 1) * 86400) :
    other.monthIndex ≤ moment.monthIndex + 1 := by
  obtain ⟨next, stepped, nextValid, count⟩ := next_day_reaches valid inSpan
  rw [← count] at inTime
  have reached := (le_iff_second_count_le otherValid nextValid).mpr inTime
  exact Int.le_trans (month_index_mono otherValid nextValid reached)
    (month_index_next_day valid nextValid stepped)

theorem within_month {other : Moment} (valid : moment.Valid) (otherValid : other.Valid)
    (ordered : moment ≤ other) (inside : other.monthIndex ≤ moment.monthIndex) :
    other.date.year = moment.date.year ∧ other.date.month = moment.date.month ∧
      moment.date.day ≤ other.date.day := by
  have month := Date.valid_month valid.1
  have otherMonth := Date.valid_month otherValid.1
  have notBefore := (not_lt_iff_le other moment).mpr ordered
  have notEarlier : ¬other.date < moment.date := fun before => notBefore (Or.inl before)
  rw [Date.lt_iff] at notEarlier
  simp only [monthIndex, Date.monthIndex] at inside
  omega

theorem within_day {other : Moment} (valid : moment.Valid) (otherValid : other.Valid)
    (ordered : moment ≤ other)
    (inside : other.secondCount < (moment.secondCount / 86400 + 1) * 86400) :
    other.date = moment.date ∧ moment.clock.hour ≤ other.clock.hour := by
  have later := (le_iff_second_count_le valid otherValid).mp ordered
  have date := date_eq_of_count_div otherValid valid (by omega)
  obtain ⟨_, minuteBound, secondBound⟩ := otherValid.2
  refine ⟨date, ?_⟩
  simp only [secondCount, Clock.secondOfDay, date] at later
  omega

theorem within_hour {other : Moment} (valid : moment.Valid) (otherValid : other.Valid)
    (ordered : moment ≤ other)
    (inside : other.secondCount < (moment.secondCount / 3600 + 1) * 3600) :
    other.date = moment.date ∧ other.clock.hour = moment.clock.hour ∧
      moment.clock.minute ≤ other.clock.minute := by
  obtain ⟨date, hour⟩ := within_day valid otherValid ordered (by omega)
  have later := (le_iff_second_count_le valid otherValid).mp ordered
  obtain ⟨_, minuteBound, secondBound⟩ := valid.2
  obtain ⟨_, otherMinuteBound, otherSecondBound⟩ := otherValid.2
  simp only [secondCount, Clock.secondOfDay, date] at later inside
  exact ⟨date, by omega, by omega⟩

theorem within_minute {other : Moment} (valid : moment.Valid) (otherValid : other.Valid)
    (ordered : moment ≤ other)
    (inside : other.secondCount < (moment.secondCount / 60 + 1) * 60) :
    other.date = moment.date ∧ other.clock.hour = moment.clock.hour ∧
      other.clock.minute = moment.clock.minute ∧ moment.clock.second ≤ other.clock.second := by
  obtain ⟨date, hour, minute⟩ := within_hour valid otherValid ordered (by omega)
  have later := (le_iff_second_count_le valid otherValid).mp ordered
  have secondBound := valid.2.2.2
  have otherSecondBound := otherValid.2.2.2
  simp only [secondCount, Clock.secondOfDay, date, hour] at later inside
  exact ⟨date, hour, by omega, by omega⟩

end Moment

end CronSchedule
