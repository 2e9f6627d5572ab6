import CronSchedule.Proofs.Expression.Feasible
import CronSchedule.Proofs.Series.Exact

/-!
# How far ahead a search has to look

A search over twelve months misses no schedule that fires every year, and one over
ninety-six months none that waits for 29 February. So in universal time only an
impossible or a leap only series ends before the last representable year.
-/

namespace CronSchedule

set_option autoImplicit false

namespace Schedule

variable {schedule : Schedule} {expression : Expression} {start : Moment} {horizon : UInt32}

/-- A match within the horizon makes the search find one. -/
theorem search_finds (represents : schedule.Represents expression) (valid : start.Valid)
    (lower : earliestYear < start.date.year)
    (room : start.monthIndex + horizon.toNat < latestYear * 12) {other : Moment}
    (otherValid : other.Valid) (selected : expression.Matches other) (ordered : start ≤ other)
    (inReach : other.monthIndex ≤ start.monthIndex + horizon.toNat) :
    ∃ found, schedule.search start horizon = .ok (some found) := by
  obtain ⟨result, searched, finds⟩ := search_up_to_spec represents room valid lower
  cases result with
  | some found => exact ⟨found, searched⟩
  | none =>
      have beyond := finds other otherValid ((represents.fires other otherValid).mpr selected)
        ordered
      omega

theorem search_finds_nothing (represents : schedule.Represents expression) (valid : start.Valid)
    (lower : earliestYear < start.date.year)
    (room : start.monthIndex + horizon.toNat < latestYear * 12)
    (never : ∀ other : Moment, other.Valid → ¬expression.Matches other) :
    schedule.search start horizon = .ok none := by
  apply (search_eq_iff represents valid lower room none).mpr
  intro other otherValid selected _
  exact absurd ((represents.fires other otherValid).mp selected) (never other otherValid)

end Schedule

theorem Moment.lt_of_month_index_lt {first second : Moment} (firstValid : first.Valid)
    (secondValid : second.Valid) (before : first.monthIndex < second.monthIndex) :
    first < second := by
  by_contra notBefore
  have months := month_index_mono secondValid firstValid ((not_lt_iff_le first second).mp notBefore)
  omega

namespace Zone

theorem utc_local_count (instant : Instant) : utc.localCount instant = instant.seconds := by
  simp [utc, fixed, localCount, offsetAt]

/-- In universal time a moment is shown at the instant with its own count of seconds. -/
theorem utc_local_moment {moment : Moment} (valid : moment.Valid) :
    utc.localMoment ⟨moment.secondCount, 0⟩ = moment := by
  rw [localMoment, utc_local_count, Moment.of_second_count_second_count valid]

end Zone

namespace Expression

variable {expression : Expression}

/-- In universal time every representable match is a firing. -/
theorem fires_at_utc {moment : Moment} (representable : moment.Representable)
    (selected : expression.Matches moment) :
    expression.FiresAt Zone.utc ⟨moment.secondCount, 0⟩ := by
  refine ⟨rfl, (Moment.representable_iff representable.1).mp representable, ?_⟩
  rw [Zone.utc_local_moment representable.1]
  exact ⟨representable, selected⟩

theorem lt_of_local_moment_lt {previous : Instant} {moment : Moment} (valid : moment.Valid)
    (before : Zone.utc.localMoment previous < moment) :
    previous < ⟨moment.secondCount, 0⟩ := by
  rw [Zone.localMoment, Moment.lt_iff_second_count_lt (Moment.valid_of_second_count _) valid,
    Moment.second_count_of_second_count, Zone.utc_local_count] at before
  exact Or.inl before

/-- Before the last year the next firing is at most twelve months away. -/
theorem not_fires_beyond (wellFormed : expression.WellFormed) (possible : ¬expression.Impossible)
    (yearly : ¬expression.LeapOnly) {horizon : Nat} (year : 12 ≤ horizon) {previous : Instant}
    (inSpan : InSpan (Zone.utc.localCount previous))
    (early : (Zone.utc.localMoment previous).date.year < Moment.lastYear) :
    ¬expression.FiresBeyond Zone.utc horizon previous := by
  intro beyond
  have shown : (Zone.utc.localMoment previous).Representable :=
    (Moment.representable_of_second_count_iff _).mpr inSpan
  obtain ⟨moment, valid, selected, later, soon⟩ :=
    exists_match_within_year wellFormed possible yearly shown.1
  have after := Moment.lt_of_month_index_lt shown.1 valid later
  have representable : moment.Representable := by
    have shownMonths := Moment.month_index_bounds shown.1
    have months := Moment.month_index_bounds valid
    have first := shown.2.1
    exact ⟨valid, by omega, by omega⟩
  have away := beyond _ (fires_at_utc representable selected) (lt_of_local_moment_lt valid after)
  have entered := month_index_le_onward expression shown shown.1 (Moment.le_refl _)
  rw [Zone.utc_local_moment valid, entry] at away
  omega

/-- With the default horizon, occurrences in universal time are the firings one after the
other. They run out before the last year only for an impossible or a leap only expression. -/
theorem occurrences_until_last_year {text : String} {expression : Expression}
    (accepted : parse text = .ok expression) {origin : Instant}
    (inSpan : InSpan (Zone.utc.localCount origin)) (count : Nat) :
    ∃ instants, expression.occurrences Zone.utc origin count = .ok instants ∧
      instants.length ≤ count ∧ (origin :: instants).IsChain (expression.FiresNext Zone.utc) ∧
      (instants.length = count ∨ expression.Impossible ∨ expression.LeapOnly ∨
        (Zone.utc.localMoment (instants.getLastD origin)).date.year = Moment.lastYear) := by
  obtain ⟨schedule, represents, made⟩ := series_spec accepted inSpan
  obtain ⟨instants, rest, taken, length, chained, ends⟩ := Series.take_fires
    ⟨schedule, Zone.utc, Series.defaultHorizon, expression.entry Zone.utc origin, origin,
      some (expression.entry Zone.utc origin), origin⟩
    represents (Zone.never_set_back_fixed 0) rfl (on_way_entry inSpan) count
  refine ⟨instants, ?_, length, chained, ends.imp_right ?_⟩
  · rw [occurrences, made]
    apply bind_eq_ok_iff.mpr
    exact ⟨_, rfl, bind_eq_ok_iff.mpr ⟨_, taken, rfl⟩⟩
  · intro beyond
    by_contra others
    obtain ⟨possible, yearly, notLast⟩ : ¬expression.Impossible ∧ ¬expression.LeapOnly ∧
        (Zone.utc.localMoment (instants.getLastD origin)).date.year ≠ Moment.lastYear := by
      simpa only [not_or] using others
    have lastInSpan := in_span_of_chain inSpan chained
    have shown := (Moment.representable_of_second_count_iff _).mpr lastInSpan
    have early : (Zone.utc.localMoment (instants.getLastD origin)).date.year < Moment.lastYear :=
      Int.lt_iff_le_and_ne.mpr ⟨shown.2.2, notLast⟩
    have year : 12 ≤ Series.defaultHorizon.toNat := by decide
    exact not_fires_beyond (well_formed_of_parse accepted) possible yearly year lastInSpan early
      beyond

/-- The horizon hides no schedule that fires, except those that wait for a leap day. In
universal time the others go from firing to firing until the last year. -/
theorem horizon_hides_leap_days_only {text : String} {expression : Expression}
    (accepted : parse text = .ok expression) :
    ∃ schedule, Schedule.ofExpression expression = .ok schedule ∧
      (∀ (start : Moment) (horizon : UInt32), start.Valid → earliestYear < start.date.year →
        start.monthIndex + horizon.toNat < latestYear * 12 →
        (expression.Impossible → schedule.search start horizon = .ok none) ∧
        (¬expression.Impossible → ¬expression.LeapOnly → 12 ≤ horizon.toNat →
          ∃ found, schedule.search start horizon = .ok (some found)) ∧
        (expression.LeapOnly → 96 ≤ horizon.toNat →
          ∃ found, schedule.search start horizon = .ok (some found))) ∧
      ∀ origin, InSpan (Zone.utc.localCount origin) → ∀ count, ∃ instants,
        expression.occurrences Zone.utc origin count = .ok instants ∧ instants.length ≤ count ∧
          (origin :: instants).IsChain (expression.FiresNext Zone.utc) ∧
          (instants.length = count ∨ expression.Impossible ∨ expression.LeapOnly ∨
            (Zone.utc.localMoment (instants.getLastD origin)).date.year = Moment.lastYear) := by
  have wellFormed := well_formed_of_parse accepted
  obtain ⟨schedule, made, represents⟩ := Schedule.of_expression_spec wellFormed
  refine ⟨schedule, made, ?_, ?_⟩
  · intro start horizon valid lower room
    refine ⟨?_, ?_, ?_⟩
    · intro impossible
      apply Schedule.search_finds_nothing represents valid lower room
      exact fun other => not_matches_of_impossible impossible
    · intro possible yearly year
      obtain ⟨other, otherValid, selected, later, soon⟩ :=
        exists_match_within_year wellFormed possible yearly valid
      apply Schedule.search_finds represents valid lower room otherValid selected
      · exact Moment.le_of_lt (Moment.lt_of_month_index_lt valid otherValid later)
      · omega
    · intro leapOnly years
      obtain ⟨other, otherValid, selected, later, soon⟩ :=
        exists_match_within_eight_years wellFormed leapOnly valid
      apply Schedule.search_finds represents valid lower room otherValid selected
      · exact Moment.le_of_lt (Moment.lt_of_month_index_lt valid otherValid later)
      · omega
  · intro origin inSpan count
    exact occurrences_until_last_year accepted inSpan count

/-- A new year is the next firing after any instant of the year before it. -/
theorem fires_next_new_year (year : Int) {previous : Instant} (lower : Moment.firstYear ≤ year)
    (upper : year ≤ Moment.lastYear) (earlier : previous < ⟨daysBeforeYear year * 86400, 0⟩)
    (begun : daysBeforeYear (year - 1) * 86400 ≤ previous.seconds) :
    (Expression.mk none (.specific 0) (.specific 0) (.specific 1) (.specific 1) .any).FiresNext
      Zone.utc previous ⟨daysBeforeYear year * 86400, 0⟩ := by
  have count : ∀ any : Int, (Moment.mk ⟨any, 1, 1⟩ ⟨0, 0, 0⟩).secondCount =
      daysBeforeYear any * 86400 := by
    intro any
    simp [Moment.secondCount, Date.dayNumber, Clock.secondOfDay, daysBeforeMonth, monthLength]
  have valid : Moment.Valid ⟨⟨year, 1, 1⟩, ⟨0, 0, 0⟩⟩ :=
    ⟨⟨Nat.le_refl 1, by simp [monthLength]⟩, show Clock.Valid ⟨0, 0, 0⟩ by decide⟩
  refine ⟨?_, earlier, ?_⟩
  · rw [← count year]
    exact fires_at_utc ⟨valid, lower, upper⟩ ((matches_yearly_iff 0 0 1 1 _).mpr rfl)
  · rintro other ⟨whole, _, _, selected⟩ after
    have same := congrArg Moment.secondCount ((matches_yearly_iff 0 0 1 1 _).mp selected)
    rw [count, Zone.localMoment, Moment.second_count_of_second_count, Zone.utc_local_count] at same
    simp only [Instant.le_iff, Instant.lt_iff] at after ⊢
    rcases Int.lt_or_le (Moment.ofSecondCount other.seconds).date.year year with before | reached
    · have ended := days_before_year_mono (Int.le_sub_one_of_lt before)
      omega
    · have begins := days_before_year_mono reached
      omega

/-- The years from 2096 to 2104 are the longest wait for 29 February. A new year comes
every year. -/
theorem horizon_hides_leap_days_only_around_2100 :
    let leapDays : Expression := ⟨none, .specific 0, .specific 0, .specific 29, .specific 2, .any⟩
    let newYears : Expression := ⟨none, .specific 0, .specific 0, .specific 1, .specific 1, .any⟩
    let start : Moment := ⟨⟨2096, 2, 29⟩, ⟨0, 1, 0⟩⟩
    let origin : Instant := ⟨start.secondCount, 0⟩
    parse "0 0 29 2 *" = .ok leapDays ∧ parse "0 0 1 1 *" = .ok newYears ∧ leapDays.LeapOnly ∧
      ¬newYears.Impossible ∧ ¬newYears.LeapOnly ∧ start.Valid ∧
      earliestYear < start.date.year ∧ start.monthIndex + 96 < latestYear * 12 ∧
      InSpan (Zone.utc.localCount origin) ∧
      (∃ schedule found, Schedule.ofExpression leapDays = .ok schedule ∧
        schedule.search start 96 = .ok (some found)) ∧
      (∃ schedule found, Schedule.ofExpression newYears = .ok schedule ∧
        schedule.search start 12 = .ok (some found)) ∧
      newYears.occurrences Zone.utc origin 2 = .ok [⟨66143433600, 0⟩, ⟨66174969600, 0⟩] := by
  intro leapDays newYears start origin
  have leapDaysAccepted : parse "0 0 29 2 *" = .ok leapDays := by decide
  have newYearsAccepted : parse "0 0 1 1 *" = .ok newYears := by decide
  have leapOnly : leapDays.LeapOnly := by
    refine ⟨?_, rfl, ?_⟩
    · rintro ⟨_, _, never⟩
      exact never 2 29 ⟨(Rule.selects_specific_iff 2 2).mpr rfl,
        (Rule.selects_specific_iff 29 29).mpr rfl, by decide⟩
    · rintro month day ⟨monthSelected, daySelected, _⟩
      exact ⟨(Rule.selects_specific_iff 2 month).mp monthSelected,
        (Rule.selects_specific_iff 29 day).mp daySelected⟩
  have named : newYears.NamesDay 1 1 := ⟨(Rule.selects_specific_iff 1 1).mpr rfl,
    (Rule.selects_specific_iff 1 1).mpr rfl, by decide⟩
  have possible : ¬newYears.Impossible := fun impossible => impossible.2.2 1 1 named
  have yearly : ¬newYears.LeapOnly := by
    intro only
    have february := (only.2.2 1 1 named).1
    omega
  have valid : start.Valid := by decide
  have lower : earliestYear < start.date.year := by decide
  have room : start.monthIndex + 96 < latestYear * 12 := by decide
  have inSpan : InSpan (Zone.utc.localCount origin) := by decide
  obtain ⟨leapSchedule, leapMade, leapSearches, _⟩ :=
    horizon_hides_leap_days_only leapDaysAccepted
  obtain ⟨schedule, made, searches, series⟩ := horizon_hides_leap_days_only newYearsAccepted
  obtain ⟨leapFound, leapSearched⟩ :=
    (leapSearches start 96 valid lower room).2.2 leapOnly (by decide)
  obtain ⟨found, searched⟩ :=
    (searches start 12 valid lower (by decide)).2.1 possible yearly (by decide)
  have occurrences : newYears.occurrences Zone.utc origin 2 =
      .ok [⟨66143433600, 0⟩, ⟨66174969600, 0⟩] := by
    have toFirst : newYears.FiresNext Zone.utc origin ⟨66143433600, 0⟩ :=
      fires_next_new_year 2097 (by decide) (by decide) (by decide) (by decide)
    have toSecond : newYears.FiresNext Zone.utc ⟨66143433600, 0⟩ ⟨66174969600, 0⟩ :=
      fires_next_new_year 2098 (by decide) (by decide) (by decide) (by decide)
    obtain ⟨instants, asked, length, chained, ends⟩ := series origin inSpan 2
    have goesOn : instants.length = 2 ∨
        (Zone.utc.localMoment (instants.getLastD origin)).date.year = Moment.lastYear := by
      rcases ends with all | impossible | only | last
      · exact Or.inl all
      · exact absurd impossible possible
      · exact absurd only yearly
      · exact Or.inr last
    rw [asked]
    cases instants with
    | nil => exact absurd goesOn (by decide)
    | cons first later =>
        obtain ⟨next, laterChained⟩ := List.isChain_cons_cons.mp chained
        obtain rfl := next.unique toFirst
        cases later with
        | nil => exact absurd goesOn (by decide)
        | cons second more =>
            obtain ⟨afterNext, _⟩ := List.isChain_cons_cons.mp laterChained
            obtain rfl := afterNext.unique toSecond
            have nothingMore : more = [] := by
              simp only [List.length_cons] at length
              exact List.length_eq_zero_iff.mp (by omega)
            rw [nothingMore]
  exact ⟨leapDaysAccepted, newYearsAccepted, leapOnly, possible, yearly, valid, lower, room,
    inSpan, ⟨leapSchedule, leapFound, leapMade, leapSearched⟩,
    ⟨schedule, found, made, searched⟩, occurrences⟩

end Expression

end CronSchedule
