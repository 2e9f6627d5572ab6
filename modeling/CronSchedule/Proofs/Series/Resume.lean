import CronSchedule.Proofs.Series.Exact
import CronSchedule.Proofs.Series.Sound

/-!
# Going on from an occurrence

What a series yields depends on where its walk stands and not on where it began. Right
after an occurrence its walk stands where the walk of a series made for that occurrence
begins, whichever of the instants of its local time the occurrence was. So a series can
be given up after any occurrence and be taken up again from it.
-/

namespace CronSchedule

set_option autoImplicit false

namespace Series

/-- The same point of the same walk, with another beginning to rewind to. -/
def begunAt (series : Series) (start : Moment) (origin : Instant) : Series :=
  { series with start := start, origin := origin }

theorem next_begun_at (series : Series) (start : Moment) (origin : Instant) :
    (series.begunAt start origin).next =
      series.next.map fun (outcome, rest) => (outcome, rest.begunAt start origin) := by
  obtain ⟨schedule, zone, horizon, _, _, position, floor⟩ := series
  cases position with
  | none => rfl
  | some position =>
      simp only [next, begunAt]
      cases advance schedule zone horizon floor position with
      | error fault => rfl
      | ok outcome =>
          cases outcome with
          | none => rfl
          | some pair => rfl

theorem nexts_begun_at (series : Series) (start : Moment) (origin : Instant) (count : Nat) :
    (series.begunAt start origin).nexts count =
      (series.nexts count).map fun (outcomes, rest) => (outcomes, rest.begunAt start origin) := by
  induction count generalizing series with
  | zero => rfl
  | succ count induction =>
      simp only [nexts, next_begun_at]
      cases series.next with
      | error fault => rfl
      | ok pair =>
          simp only [Except.map, induction]
          cases pair.2.nexts count with
          | error fault => rfl
          | ok later => rfl

/-- The series looks for the moments of the expression in the zone, within the horizon. -/
structure Serves (series : Series) (expression : Expression) (zone : Zone) (horizon : UInt32) :
    Prop where
  schedule : Schedule.ofExpression expression = .ok series.schedule
  zone : series.zone = zone
  horizon : series.horizon = horizon

variable {series rest : Series} {expression : Expression} {zone : Zone} {horizon : UInt32}

theorem Serves.next {outcome : Option Instant} (serves : series.Serves expression zone horizon)
    (yielded : series.next = .ok (outcome, rest)) : rest.Serves expression zone horizon := by
  unfold Series.next at yielded
  split at yielded
  case h_1 =>
      cases yielded
      exact serves
  case h_2 =>
      split at yielded
      case h_1 => cases yielded
      all_goals
        cases yielded
        exact ⟨serves.schedule, serves.zone, serves.horizon⟩

theorem Serves.nexts {count : Nat} {outcomes : List (Option Instant)}
    (serves : series.Serves expression zone horizon)
    (ran : series.nexts count = .ok (outcomes, rest)) : rest.Serves expression zone horizon := by
  induction count generalizing series outcomes with
  | zero =>
      cases ran
      exact serves
  | succ count induction =>
      unfold Series.nexts at ran
      split at ran
      case h_1 => cases ran
      case h_2 outcome middle yielded =>
          obtain ⟨⟨later, last⟩, continued, same⟩ := map_eq_ok_iff.mp ran
          cases same
          exact induction (serves.next yielded) continued

/-- So many calls for the next occurrence have an outcome each, and the series stays
sound. -/
theorem Sound.nexts (sound : series.Sound expression) (count : Nat) :
    ∃ outcomes last, series.nexts count = .ok (outcomes, last) ∧ outcomes.length = count ∧
      last.Sound expression := by
  induction count generalizing series with
  | zero => exact ⟨[], series, rfl, rfl, sound⟩
  | succ count induction =>
      obtain ⟨outcome, middle, yielded, middleSound⟩ := sound.next
      obtain ⟨later, last, continued, length, lastSound⟩ := induction middleSound
      refine ⟨outcome :: later, last, nexts_continues yielded continued, ?_, lastSound⟩
      rw [List.length_cons, length]

/-- After an occurrence the series is the one made for it, but for what a rewind goes
back to. -/
theorem Serves.resumes {last : Instant} (serves : series.Serves expression zone horizon)
    (sound : series.Sound expression) (yielded : series.next = .ok (some last, rest)) :
    ∃ fresh, expression.series zone last = .ok fresh ∧
      rest = (fresh.withHorizon horizon).begunAt series.start series.origin := by
  obtain ⟨made, rfl, rfl⟩ := serves
  cases known : series.position with
  | none =>
      simp only [Series.next, known] at yielded
      cases yielded
  | some position =>
      obtain ⟨result, course, asked⟩ :=
        next_spec sound.represents known (sound.onWay position known)
      rw [yielded] at asked
      cases result with
      | none => cases asked
      | some pair =>
          obtain ⟨instant, resume⟩ := pair
          cases asked
          have inSpan := (Moment.representable_of_second_count_iff _).mp course.local_moment.1
          refine ⟨_, Expression.series_eq made sound.represents inSpan, ?_⟩
          rw [course.resume_eq]
          rfl

end Series

namespace Expression

theorem serves_of_series {text : String} {expression : Expression} {zone : Zone}
    {origin : Instant} {series : Series} (accepted : parse text = .ok expression)
    (inSpan : InSpan (zone.localCount origin)) (made : expression.series zone origin = .ok series)
    (horizon : UInt32) : (series.withHorizon horizon).Serves expression zone horizon := by
  obtain ⟨schedule, known, represents⟩ :=
    Schedule.of_expression_spec (well_formed_of_parse accepted)
  rw [series_eq known represents inSpan] at made
  cases made
  exact ⟨known, rfl, rfl⟩

/-- After any occurrence of a series, whatever came before it, the further outcomes are
those of the series that begins with that occurrence. -/
theorem occurrences_resume {text : String} {expression : Expression}
    (accepted : parse text = .ok expression) (zone : Zone) {origin : Instant}
    (inSpan : InSpan (zone.localCount origin)) (horizon : UInt32) (count : Nat) :
    ∃ series earlier before outcome rest, expression.series zone origin = .ok series ∧
      (series.withHorizon horizon).nexts count = .ok (earlier, before) ∧
      earlier.length = count ∧ before.next = .ok (outcome, rest) ∧
      ∀ last, outcome = some last →
        ∃ fresh, expression.series zone last = .ok fresh ∧
          ∀ more, ∃ later restEnd freshEnd, rest.nexts more = .ok (later, restEnd) ∧
            (fresh.withHorizon horizon).nexts more = .ok (later, freshEnd) := by
  obtain ⟨series, made, sound⟩ := series_sound accepted inSpan
  have serves := serves_of_series accepted inSpan made horizon
  obtain ⟨earlier, before, ran, length, beforeSound⟩ := (sound.with_horizon horizon).nexts count
  obtain ⟨outcome, rest, yielded, restSound⟩ := beforeSound.next
  refine ⟨series, earlier, before, outcome, rest, made, ran, length, yielded, ?_⟩
  rintro last rfl
  obtain ⟨fresh, freshMade, same⟩ := (serves.nexts ran).resumes beforeSound yielded
  refine ⟨fresh, freshMade, ?_⟩
  intro more
  obtain ⟨later, restEnd, continued, _⟩ := restSound.nexts more
  have elsewhere :=
    Series.nexts_begun_at (fresh.withHorizon horizon) before.start before.origin more
  rw [← same, continued] at elsewhere
  obtain ⟨⟨_, freshEnd⟩, freshRan, sameOutcomes⟩ := map_eq_ok_iff.mp elsewhere.symm
  cases sameOutcomes
  exact ⟨later, _, freshEnd, continued, freshRan⟩

/-- A daily time in the hour that is repeated when clocks are set back. The series begins
within that hour and yields the second of the two instants. It goes on a day later, as
does the series that is made for that instant. -/
theorem occurrences_resume_after_repeated_hour :
    let expression : Expression := ⟨none, .specific 30, .specific 2, .any, .any, .any⟩
    let zone : Zone := ⟨7200, [(⟨63865587600, 0⟩, 3600)]⟩
    let origin : Instant := ⟨63865588500, 0⟩
    let last : Instant := ⟨63865589400, 0⟩
    let nextDay : Instant := ⟨63865675800, 0⟩
    parse "30 2 * * *" = .ok expression ∧ InSpan (zone.localCount origin) ∧
      ∃ series rest fresh, expression.series zone origin = .ok series ∧
        (series.withHorizon 3).next = .ok (some last, rest) ∧
        expression.series zone last = .ok fresh ∧
        (∀ more, ∃ later restEnd freshEnd, rest.nexts more = .ok (later, restEnd) ∧
          (fresh.withHorizon 3).nexts more = .ok (later, freshEnd)) ∧
        ∃ restEnd freshEnd, rest.nexts 1 = .ok ([some nextDay], restEnd) ∧
          (fresh.withHorizon 3).nexts 1 = .ok ([some nextDay], freshEnd) := by
  intro expression zone origin last nextDay
  have accepted : parse "30 2 * * *" = .ok expression := by decide
  have inSpan : InSpan (zone.localCount origin) := by decide
  let schedule : Schedule := ⟨false, .singleton 0, .singleton 30, .singleton 2, none,
    .stepping 1 12 1, none⟩
  have made : Schedule.ofExpression expression = .ok schedule := by decide
  let start : Moment := ⟨⟨2024, 10, 27⟩, ⟨2, 16, 0⟩⟩
  let found : Moment := ⟨⟨2024, 10, 27⟩, ⟨2, 30, 0⟩⟩
  let series : Series := ⟨schedule, zone, Series.defaultHorizon, start, origin, some start, origin⟩
  have seriesMade : expression.series zone origin = .ok series :=
    series_of_step made inSpan (by decide)
  have searched : schedule.search start 3 = .ok (some found) :=
    Schedule.search_up_to_hit (by decide) (by decide)
  have later : zone.resolve origin found = some last := by decide
  let resume : Moment := ⟨⟨2024, 10, 27⟩, ⟨2, 31, 0⟩⟩
  have asked : (series.withHorizon 3).next =
      .ok (some last, (series.withHorizon 3).resumed last resume) :=
    Series.next_yields rfl searched (by decide) rfl later
  have toNextDay : schedule.search resume 3 = .ok (some ⟨⟨2024, 10, 28⟩, ⟨2, 30, 0⟩⟩) := by
    let resumes : List Moment := [⟨⟨2024, 10, 27⟩, ⟨3, 0, 0⟩⟩, ⟨⟨2024, 10, 28⟩, ⟨0, 0, 0⟩⟩]
    rw [Schedule.search, Schedule.search_up_to_misses resumes (by decide)]
    exact Schedule.search_up_to_hit (by decide) (by decide)
  have again : ((series.withHorizon 3).resumed last resume).next = .ok (some nextDay, _) :=
    Series.next_yields rfl toNextDay (by decide) rfl (by decide)
  have continued : ((series.withHorizon 3).resumed last resume).nexts 1 =
      .ok ([some nextDay], _) := Series.nexts_continues again rfl
  obtain ⟨other, _, before, outcome, rest, otherMade, ran, _, yielded, resumes⟩ :=
    occurrences_resume accepted zone inSpan 3 0
  rw [seriesMade] at otherMade
  cases otherMade
  cases ran
  rw [asked] at yielded
  cases yielded
  obtain ⟨fresh, freshMade, same⟩ := resumes last rfl
  obtain ⟨outcomes, restEnd, freshEnd, ran, freshRan⟩ := same 1
  rw [continued] at ran
  cases ran
  exact ⟨accepted, inSpan, series, _, fresh, seriesMade, asked, freshMade, same, _, freshEnd,
    continued, freshRan⟩

end Expression

end CronSchedule
