import CronSchedule.Proofs.Expression.Feasible
import CronSchedule.Proofs.Series.Exact
import CronSchedule.Proofs.Series.Walks

/-!
# Asking again while waiting

The next occurrence stays the same while it is waited for, whatever the clocks do in
between, but for three things that clocks set back can bring about. The local clock may
already have read the local time of the occurrence. It may read earlier than when the
occurrence was first asked for, and a match on the stretch that it passes again may still
be shown. Then too it may read an earlier month, from which the horizon reaches less far.
-/

namespace CronSchedule

set_option autoImplicit false

namespace Expression

variable {expression : Expression} {zone : Zone} {floor later instant : Instant}
  {moment found resume : Moment} {text : String}

theorem upcoming_of_course (accepted : parse text = .ok expression)
    (inSpan : InSpan (zone.localCount floor)) {outcome : Option (Instant × Moment)}
    (course : expression.Course zone Series.defaultHorizon.toNat floor
      (expression.entry zone floor) outcome) :
    expression.upcoming zone floor = .ok (outcome.map Prod.fst) := by
  obtain ⟨schedule, represents, made⟩ := series_spec accepted inSpan
  let series : Series := ⟨schedule, zone, Series.defaultHorizon, expression.entry zone floor,
    floor, some (expression.entry zone floor), floor⟩
  have known : series.position = some (expression.entry zone floor) := rfl
  obtain ⟨result, other, yielded⟩ := Series.next_spec represents known (on_way_entry inSpan)
  obtain rfl := course.unique other
  rw [upcoming, made]
  apply bind_eq_ok_iff.mpr
  refine ⟨_, rfl, ?_⟩
  apply bind_eq_ok_iff.mpr
  refine ⟨_, yielded, ?_⟩
  cases outcome <;> rfl

theorem exists_course (accepted : parse text = .ok expression)
    (inSpan : InSpan (zone.localCount floor)) :
    ∃ outcome, expression.Course zone Series.defaultHorizon.toNat floor
      (expression.entry zone floor) outcome := by
  obtain ⟨schedule, represents, _⟩ := series_spec accepted inSpan
  obtain ⟨outcome, _, course⟩ :=
    Series.advance_course represents Series.defaultHorizon floor (on_way_entry inSpan)
  exact ⟨outcome, course⟩

theorem upcoming_eq_some_iff (accepted : parse text = .ok expression)
    (inSpan : InSpan (zone.localCount floor)) :
    expression.upcoming zone floor = .ok (some instant) ↔
      ∃ resume, expression.Course zone Series.defaultHorizon.toNat floor
        (expression.entry zone floor) (some (instant, resume)) := by
  constructor
  · intro asked
    obtain ⟨outcome, course⟩ := exists_course accepted inSpan
    rw [upcoming_of_course accepted inSpan course, Except.ok.injEq, Option.map_eq_some_iff] at asked
    obtain ⟨⟨_, resume⟩, rfl, rfl⟩ := asked
    exact ⟨resume, course⟩
  · rintro ⟨resume, course⟩
    exact upcoming_of_course accepted inSpan course

theorem entry_le_iff (valid : moment.Valid) (selected : expression.Matches moment) :
    expression.entry zone floor ≤ moment ↔ zone.localMoment floor < moment :=
  onward_le_iff (Moment.valid_of_second_count _) valid selected

theorem entry_mono (ordered : zone.localMoment floor ≤ zone.localMoment later) :
    expression.entry zone floor ≤ expression.entry zone later := by
  have stands := stands_onward expression (zone.localMoment later)
  apply stands.reaches _ (Moment.valid_of_second_count _)
  exact Moment.lt_of_le_of_lt ordered (expression.lt_onward (Moment.valid_of_second_count _))

/-- Whoever asks again before the announced occurrence is given the same one, if and only
if the local clock has not come to its local time, and after being set back shows no match
again on the stretch that it has passed. The months of the horizon must reach as far as at
first, or at least to the occurrence. -/
theorem upcoming_stable {expression : Expression} (accepted : parse text = .ok expression)
    (zone : Zone) {first second next : Instant} (firstInSpan : InSpan (zone.localCount first))
    (secondInSpan : InSpan (zone.localCount second)) (ordered : first ≤ second)
    (announced : expression.upcoming zone first = .ok (some next)) (waiting : second < next)
    (inReach : (expression.entry zone first).monthIndex ≤
        (expression.entry zone second).monthIndex ∨
      (zone.localMoment next).monthIndex ≤
        (expression.entry zone second).monthIndex + Series.defaultHorizon.toNat) :
    expression.upcoming zone second = .ok (some next) ↔
      zone.localMoment second < zone.localMoment next ∧
        ∀ instant, second < instant → expression.FiresAt zone instant →
          zone.localMoment second < zone.localMoment instant →
            zone.localMoment first < zone.localMoment instant := by
  obtain ⟨resume, course⟩ := (upcoming_eq_some_iff accepted firstInSpan).mp announced
  obtain ⟨nextRepresentable, nextSelected, nextReached⟩ := course.local_moment
  have nextValid := nextRepresentable.1
  rw [upcoming_eq_some_iff accepted secondInSpan]
  constructor
  · rintro ⟨_, again⟩
    refine ⟨(entry_le_iff nextValid nextSelected).mp again.local_moment.2.2, ?_⟩
    rintro instant after ⟨whole, inSpan, representable, selected⟩ ahead
    by_contra notAhead
    have repeated := (Moment.not_lt_iff_le _ _).mp notAhead
    have further := (entry_le_iff nextValid nextSelected).mp nextReached
    have before := Moment.lt_of_le_of_lt repeated further
    obtain ⟨shown, emitted⟩ :=
      Zone.exists_emits_of_shows representable.1 ⟨whole, inSpan, rfl⟩ after
    have reached := (entry_le_iff representable.1 selected).mpr ahead
    exact again.passes representable selected reached before shown emitted
  · rintro ⟨notYet, silent⟩
    have reached := (entry_le_iff nextValid nextSelected).mpr notYet
    have firstOnWay : (expression.entry zone first).OnWay := on_way_entry firstInSpan
    rcases Moment.lt_or_le (zone.localMoment second) (zone.localMoment first) with back | onwards
    · -- the walk of the second question comes to where that of the first one began
      have ahead := course.stable firstOnWay.1 (stands_onward expression _) (Moment.le_refl _)
        nextReached ordered waiting
      have silentStretch : ∀ other : Moment, other.Representable → expression.Matches other →
          expression.entry zone second ≤ other → other < expression.entry zone first →
          ∀ shown, ¬zone.Emits second other shown := by
        intro other representable selected fromSecond before shown emitted
        obtain ⟨whole, inSpan, same⟩ := Zone.shows_of_emits emitted
        have later := (entry_le_iff representable.1 selected).mp fromSecond
        rw [← same] at representable selected before later
        have repeated := silent shown emitted.1 ⟨whole, inSpan, representable, selected⟩ later
        have beyond := (entry_le_iff representable.1 selected).mpr repeated
        exact Moment.lt_irrefl _ (Moment.lt_of_lt_of_le before beyond)
      obtain ⟨outcome, again⟩ := exists_course accepted secondInSpan
      have joined := again.joins ahead (on_way_entry secondInSpan).1 (stands_onward expression _)
        (entry_mono (Moment.le_of_lt back)) silentStretch inReach
      rw [joined] at again
      exact ⟨resume, again⟩
    · exact ⟨resume, course.stable firstOnWay.1 (stands_onward expression _) (entry_mono onwards)
        reached ordered waiting⟩

/-- The first search is all that it takes when its match stands for an instant. -/
theorem upcoming_of_search {schedule : Schedule} {start : Moment}
    (made : Schedule.ofExpression expression = .ok schedule)
    (inSpan : InSpan (zone.localCount floor))
    (begun : schedule.step (zone.localMoment floor) = .ok start)
    (searched : schedule.search start Series.defaultHorizon = .ok (some found))
    (representable : found.Representable) (stepped : schedule.step found = .ok resume)
    (resolved : zone.resolve floor found = some instant) :
    expression.upcoming zone floor = .ok (some instant) := by
  rw [upcoming, series_of_step made inSpan begun]
  apply bind_eq_ok_iff.mpr
  refine ⟨_, rfl, ?_⟩
  apply bind_eq_ok_iff.mpr
  exact ⟨_, Series.next_yields rfl searched representable stepped resolved, rfl⟩

/-- Noon is waited for while the clock is set back in the night. At the second instant it
reads half an hour less than at the first one. -/
theorem upcoming_stable_in_repeated_hour :
    let expression : Expression := ⟨none, .specific 0, .specific 12, .any, .any, .any⟩
    let zone : Zone := ⟨7200, [(⟨63865587600, 0⟩, 3600)]⟩
    let first : Instant := ⟨63865586700, 0⟩
    let second : Instant := ⟨63865588500, 500⟩
    let next : Instant := ⟨63865623600, 0⟩
    parse "0 12 * * *" = .ok expression ∧ InSpan (zone.localCount first) ∧
      InSpan (zone.localCount second) ∧ first ≤ second ∧
      expression.upcoming zone first = .ok (some next) ∧ second < next ∧
      (expression.entry zone first).monthIndex ≤ (expression.entry zone second).monthIndex ∧
      zone.localMoment second < zone.localMoment first ∧
      expression.upcoming zone second = .ok (some next) := by
  intro expression zone first second next
  have accepted : parse "0 12 * * *" = .ok expression := by decide
  have firstInSpan : InSpan (zone.localCount first) := by decide
  have secondInSpan : InSpan (zone.localCount second) := by decide
  have ordered : first ≤ second := by decide
  let schedule : Schedule := ⟨false, .singleton 0, .singleton 0, .singleton 12, none,
    .stepping 1 12 1, none⟩
  have made : Schedule.ofExpression expression = .ok schedule := by decide
  have searched : schedule.search ⟨⟨2024, 10, 27⟩, ⟨2, 46, 0⟩⟩ Series.defaultHorizon =
      .ok (some ⟨⟨2024, 10, 27⟩, ⟨12, 0, 0⟩⟩) :=
    Schedule.search_up_to_hit (by decide) (by decide)
  have announced : expression.upcoming zone first = .ok (some next) :=
    upcoming_of_search made firstInSpan (by decide) searched (by decide) rfl (by decide)
  have waiting : second < next := by decide
  have sameMonth : (expression.entry zone first).monthIndex ≤
      (expression.entry zone second).monthIndex := by decide
  have back : zone.localMoment second < zone.localMoment first := by decide
  have notYet : zone.localMoment second < zone.localMoment next := by decide
  have stable := upcoming_stable accepted zone firstInSpan secondInSpan ordered announced waiting
    (Or.inl sameMonth)
  refine ⟨accepted, firstInSpan, secondInSpan, ordered, announced, waiting, sameMonth, back,
    stable.mpr ⟨notYet, ?_⟩⟩
  intro instant _ fires ahead
  -- after a quarter past two it is noon only after a quarter to three
  have hour : (zone.localMoment instant).clock.hour = 12 :=
    (Rule.selects_specific_iff 12 _).mp fires.2.2.2.2.2.1
  have clock := fires.2.2.1.1.2
  have secondCount : zone.localCount second = 63865592100 := by decide
  have firstCount : zone.localCount first = 63865593900 := by decide
  rw [Zone.localMoment, Moment.lt_iff_second_count_lt (Moment.valid_of_second_count _)
    fires.2.2.1.1, Moment.second_count_of_second_count] at ahead ⊢
  simp only [Clock.Valid] at clock
  simp only [Moment.secondCount, Clock.secondOfDay] at ahead ⊢
  omega

/-- At the second instant the answer is not the occurrence announced at the first one,
which is still to come. -/
structure Changes (expression : Expression) (zone : Zone) (first second next : Instant)
    (answer : Option Instant) : Prop where
  firstInSpan : InSpan (zone.localCount first)
  secondInSpan : InSpan (zone.localCount second)
  ordered : first ≤ second
  announced : expression.upcoming zone first = .ok (some next)
  waiting : second < next
  asked : expression.upcoming zone second = .ok answer
  differs : answer ≠ some next

/-- From 2099 on the first 29 February is that of 2104. -/
theorem first_leap_day_from_2099 {position : Moment} (early : 2099 ≤ position.date.year)
    (reached : position ≤ ⟨⟨2104, 2, 29⟩, ⟨0, 0, 0⟩⟩) :
    (Expression.mk none (.specific 0) (.specific 0) (.specific 29) (.specific 2) .any).FirstFrom
      position ⟨⟨2104, 2, 29⟩, ⟨0, 0, 0⟩⟩ := by
  refine ⟨by decide, (matches_yearly_iff 0 0 29 2 _).mpr rfl, reached, ?_⟩
  intro other representable selected fromPosition
  have same := (matches_yearly_iff 0 0 29 2 other).mp selected
  have year := Moment.year_le_of_le fromPosition
  have day : 29 ≤ monthLength other.date.year 2 := by
    have inMonth := representable.1.1.2
    rw [same] at inMonth
    exact inMonth
  have leap : IsLeap other.date.year := by
    by_contra common
    rw [month_length_february, if_neg common] at day
    omega
  apply (Moment.not_lt_iff_le _ _).mp
  intro before
  have notLater : other.date.year ≤ 2104 := Moment.year_le_of_le (Moment.le_of_lt before)
  have only : other.date.year = 2104 := by
    simp only [IsLeap] at leap
    omega
  rw [same, only] at before
  exact Moment.lt_irrefl _ before

/-- Clocks that are set back may bring a new occurrence, when they read a time earlier than
the first again. They may hide the announced one, when they have already read beyond it, or
when they read a month earlier and the horizon ends a month earlier too. -/
theorem upcoming_changes_when_set_back :
    let halfHours : Expression := ⟨none, .step 30, .any, .any, .any, .any⟩
    let daily : Expression := ⟨none, .specific 45, .specific 2, .any, .any, .any⟩
    let leapDays : Expression := ⟨none, .specific 0, .specific 0, .specific 29, .specific 2, .any⟩
    let setBack : Zone := ⟨7200, [(⟨63865587600, 0⟩, 3600)]⟩
    let setForwardAndBack : Zone := ⟨0, [(⟨63865591200, 0⟩, 3600), (⟨63865593000, 0⟩, 0)]⟩
    let setBackAtMonthEnd : Zone := ⟨3600, [(⟨66209182200, 0⟩, 0)]⟩
    parse "*/30 * * * *" = .ok halfHours ∧ parse "45 2 * * *" = .ok daily ∧
      parse "0 0 29 2 *" = .ok leapDays ∧
      halfHours.Changes setBack ⟨63865586700, 0⟩ ⟨63865588500, 0⟩ ⟨63865591200, 0⟩
        (some ⟨63865589400, 0⟩) ∧
      daily.Changes setForwardAndBack ⟨63865590600, 0⟩ ⟨63865592100, 0⟩ ⟨63865593900, 0⟩
        (some ⟨63865680300, 0⟩) ∧
      leapDays.Changes setBackAtMonthEnd ⟨66209181300, 0⟩ ⟨66209183100, 0⟩ ⟨66369283200, 0⟩
        none := by
  intro halfHours daily leapDays setBack setForwardAndBack setBackAtMonthEnd
  have leapDaysAccepted : parse "0 0 29 2 *" = .ok leapDays := by decide
  refine ⟨by decide, by decide, leapDaysAccepted, ?_, ?_, ?_⟩
  · let schedule : Schedule := ⟨false, .singleton 0, .stepping 0 59 30, .stepping 0 23 1, none,
      .stepping 1 12 1, none⟩
    have made : Schedule.ofExpression halfHours = .ok schedule := by decide
    have missed : schedule.probe ⟨⟨2024, 10, 27⟩, ⟨2, 46, 0⟩⟩ =
        .ok (.miss ⟨⟨2024, 10, 27⟩, ⟨3, 0, 0⟩⟩) := by decide
    have passed : schedule.search ⟨⟨2024, 10, 27⟩, ⟨2, 46, 0⟩⟩ Series.defaultHorizon =
        .ok (some ⟨⟨2024, 10, 27⟩, ⟨3, 0, 0⟩⟩) := by
      rw [Schedule.search, Schedule.search_up_to_miss (by decide) missed]
      exact Schedule.search_up_to_hit (by decide) (by decide)
    have repeated : schedule.search ⟨⟨2024, 10, 27⟩, ⟨2, 16, 0⟩⟩ Series.defaultHorizon =
        .ok (some ⟨⟨2024, 10, 27⟩, ⟨2, 30, 0⟩⟩) :=
      Schedule.search_up_to_hit (by decide) (by decide)
    constructor
    case announced =>
        exact upcoming_of_search made (by decide) (by decide) passed (by decide) rfl (by decide)
    case asked =>
        exact upcoming_of_search made (by decide) (by decide) repeated (by decide) rfl (by decide)
    all_goals decide
  · let schedule : Schedule := ⟨false, .singleton 0, .singleton 45, .singleton 2, none,
      .stepping 1 12 1, none⟩
    have made : Schedule.ofExpression daily = .ok schedule := by decide
    have today : schedule.search ⟨⟨2024, 10, 27⟩, ⟨1, 51, 0⟩⟩ Series.defaultHorizon =
        .ok (some ⟨⟨2024, 10, 27⟩, ⟨2, 45, 0⟩⟩) :=
      Schedule.search_up_to_hit (by decide) (by decide)
    have missed : schedule.probe ⟨⟨2024, 10, 27⟩, ⟨3, 16, 0⟩⟩ =
        .ok (.miss ⟨⟨2024, 10, 28⟩, ⟨0, 0, 0⟩⟩) := by decide
    have tomorrow : schedule.search ⟨⟨2024, 10, 27⟩, ⟨3, 16, 0⟩⟩ Series.defaultHorizon =
        .ok (some ⟨⟨2024, 10, 28⟩, ⟨2, 45, 0⟩⟩) := by
      rw [Schedule.search, Schedule.search_up_to_miss (by decide) missed]
      exact Schedule.search_up_to_hit (by decide) (by decide)
    constructor
    case announced =>
        exact upcoming_of_search made (by decide) (by decide) today (by decide) rfl (by decide)
    case asked =>
        exact upcoming_of_search made (by decide) (by decide) tomorrow (by decide) rfl (by decide)
    all_goals decide
  · let leapDay : Moment := ⟨⟨2104, 2, 29⟩, ⟨0, 0, 0⟩⟩
    have firstInSpan : InSpan (setBackAtMonthEnd.localCount ⟨66209181300, 0⟩) := by decide
    have secondInSpan : InSpan (setBackAtMonthEnd.localCount ⟨66209183100, 0⟩) := by decide
    have emitted : setBackAtMonthEnd.Emits ⟨66209181300, 0⟩ leapDay ⟨66369283200, 0⟩ :=
      (Zone.resolve_eq_some_iff (by decide)).mp (by decide)
    have first : leapDays.FirstFrom (leapDays.entry setBackAtMonthEnd ⟨66209181300, 0⟩) leapDay :=
      first_leap_day_from_2099 (by decide) (by decide)
    have again : leapDays.FirstFrom (leapDays.entry setBackAtMonthEnd ⟨66209183100, 0⟩) leapDay :=
      first_leap_day_from_2099 (by decide) (by decide)
    have ends : leapDays.Course setBackAtMonthEnd Series.defaultHorizon.toNat
        ⟨66209183100, 0⟩ (leapDays.entry setBackAtMonthEnd ⟨66209183100, 0⟩) none := by
      apply Course.ends
      intro other representable selected reached
      have least := again.least other representable selected reached
      have months := Moment.month_index_mono again.representable.1 representable.1 least
      exact lt_of_lt_of_le (by decide) months
    constructor
    case announced =>
        exact upcoming_of_course leapDaysAccepted firstInSpan
          (Course.yields first (by decide) emitted)
    case asked => exact upcoming_of_course leapDaysAccepted secondInSpan ends
    all_goals decide

end Expression

end CronSchedule
