import CronSchedule.Proofs.Expression.EitherDay
import CronSchedule.Proofs.Expression.RoundTrip
import CronSchedule.Proofs.Series.Exact
import Mathlib.Order.Bounds.Basic

/-!
# The first occurrence on either day

Under a fixed offset the first result of a series is the least of the firings within its
horizon. The firings of an expression that restricts both day fields are those of its two
expressions with one of these fields left open. So its first result is the earlier of
theirs, although the three searches take different ways.
-/

namespace CronSchedule

set_option autoImplicit false

namespace Instant

/-- The least of the instants, or nothing where there are none. -/
def IsFirst (instants : Set Instant) : Option Instant → Prop
  | none => instants = ∅
  | some instant => IsLeast instants instant

variable {instants others : Set Instant} {first second : Option Instant}

theorem IsFirst.unique (isFirst : IsFirst instants first) (alsoFirst : IsFirst instants second) :
    first = second := by
  cases first with
  | none =>
      cases second with
      | none => rfl
      | some instant => exact absurd isFirst (Set.nonempty_iff_ne_empty.mp ⟨instant, alsoFirst.1⟩)
  | some instant =>
      cases second with
      | none => exact absurd alsoFirst (Set.nonempty_iff_ne_empty.mp ⟨instant, isFirst.1⟩)
      | some other => exact congrArg some (IsLeast.unique isFirst alsoFirst)

/-- The first of two sets together is the earlier of their firsts, where nothing is later
than everything. -/
theorem IsFirst.union (isFirst : IsFirst instants first) (otherFirst : IsFirst others second) :
    IsFirst (instants ∪ others) (Option.merge min first second) := by
  cases first with
  | none =>
      rw [show instants = ∅ from isFirst, Set.empty_union, Option.merge_none_left]
      exact otherFirst
  | some instant =>
      cases second with
      | none =>
          rw [show others = ∅ from otherFirst, Set.union_empty, Option.merge_none_right]
          exact isFirst
      | some other => exact IsLeast.union isFirst otherFirst

end Instant

namespace Expression

/-- The firings after an instant that lie within the horizon. -/
def firingsWithin (expression : Expression) (zone : Zone) (horizon : Nat) (previous : Instant) :
    Set Instant :=
  {instant | expression.FiresAt zone instant ∧ previous < instant ∧
    (zone.localMoment instant).monthIndex ≤
      (expression.entry zone previous).monthIndex + horizon}

/-- The first result of a fresh series with the horizon. -/
def firstWithin (expression : Expression) (zone : Zone) (horizon : UInt32) (origin : Instant) :
    Except Fault (Option Instant) := do
  let series ← expression.series zone origin
  let (instant, _) ← (series.withHorizon horizon).next
  return instant

variable {expression : Expression} {offset : Int} {origin instant : Instant}
  {found resume : Moment}

theorem firings_within_either (byDay : expression.dayOfMonth.isAny = false)
    (byWeekday : expression.dayOfWeek.isAny = false) (zone : Zone) (horizon : Nat)
    (previous : Instant) :
    expression.firingsWithin zone horizon previous =
      expression.onDays.firingsWithin zone horizon previous ∪
        expression.onWeekdays.firingsWithin zone horizon previous := by
  have sameDays : expression.onDays.entry zone previous = expression.entry zone previous := rfl
  have sameWeekdays :
      expression.onWeekdays.entry zone previous = expression.entry zone previous := rfl
  ext instant
  simp only [firingsWithin, FiresAt, Set.mem_union, Set.mem_ofPred_eq, sameDays, sameWeekdays,
    matches_iff_either byDay byWeekday]
  tauto

/-- Under a fixed offset every moment between the local times of two instants is shown. -/
theorem exists_emits_between (originInSpan : InSpan origin.seconds)
    (inSpan : InSpan instant.seconds) (valid : found.Valid)
    (after : (Zone.fixed offset).localMoment origin < found)
    (before : found ≤ (Zone.fixed offset).localMoment instant) :
    ∃ shown, (Zone.fixed offset).Emits origin found shown := by
  have count : ∀ other : Instant, (Zone.fixed offset).localCount other = other.seconds + offset :=
    fun _ => rfl
  rw [Zone.localMoment, Moment.lt_iff_second_count_lt (Moment.valid_of_second_count _) valid,
    Moment.second_count_of_second_count, count] at after
  rw [Zone.localMoment, Moment.le_iff_second_count_le valid (Moment.valid_of_second_count _),
    Moment.second_count_of_second_count, count] at before
  let shown : Instant := ⟨found.secondCount - offset, 0⟩
  have seconds : shown.seconds = found.secondCount - offset := rfl
  have later : origin < shown := by
    rw [Instant.lt_iff]
    exact Or.inl (by omega)
  have shownInSpan : InSpan shown.seconds := by
    unfold InSpan at originInSpan inSpan ⊢
    omega
  have same : (Zone.fixed offset).localMoment shown = found := by
    rw [Zone.local_moment_eq_iff valid, count]
    omega
  have shows : (Zone.fixed offset).Shows shown found := ⟨rfl, shownInSpan, same⟩
  exact ⟨shown, Zone.emits_of_shows (Zone.never_set_back_fixed offset) shows later⟩

/-- Under a fixed offset no match is passed over for a later one. A match that stands for no
instant lies beyond all that do. -/
theorem Course.in_reach {horizon : Nat}
    (course : expression.Course (Zone.fixed offset) horizon origin
      (expression.entry (Zone.fixed offset) origin) (some (instant, resume)))
    (originInSpan : InSpan origin.seconds) (inSpan : InSpan instant.seconds) :
    ((Zone.fixed offset).localMoment instant).monthIndex ≤
      (expression.entry (Zone.fixed offset) origin).monthIndex + horizon := by
  cases course with
  | yields first inReach emitted =>
      rw [(Zone.shows_of_emits emitted).2.2]
      exact inReach
  | @skips _ found _ first _ passed later =>
      have begun := expression.lt_onward (Moment.valid_of_second_count
        ((Zone.fixed offset).localCount origin))
      have after := Moment.lt_of_lt_of_le begun first.reached
      have onwards := expression.lt_onward first.representable.1
      have before := Moment.le_of_lt (Moment.lt_of_lt_of_le onwards later.local_moment.2.2)
      rcases exists_emits_between originInSpan inSpan first.representable.1 after before with
        ⟨shown, emitted⟩
      exact absurd emitted (passed shown)

theorem Course.is_first {horizon : Nat} {outcome : Option (Instant × Moment)}
    (course : expression.Course (Zone.fixed offset) horizon origin
      (expression.entry (Zone.fixed offset) origin) outcome)
    (originInSpan : InSpan origin.seconds)
    (inSpan : InSpan ((Zone.fixed offset).localCount origin)) :
    Instant.IsFirst (expression.firingsWithin (Zone.fixed offset) horizon origin)
      (outcome.map Prod.fst) := by
  have forward := Zone.never_set_back_fixed offset
  have told := course.tells forward (on_way_entry inSpan).1 (ahead_entry forward origin)
  cases outcome with
  | none =>
      apply Set.eq_empty_of_forall_notMem
      intro instant within
      rcases within with ⟨fires, later, inReach⟩
      have beyond := told instant fires later
      omega
  | some pair =>
      rcases pair with ⟨instant, resume⟩
      rcases told with ⟨⟨fires, later, least⟩, _⟩
      constructor
      · exact ⟨fires, later, course.in_reach originInSpan fires.2.1⟩
      · intro other within
        exact least other within.1 within.2.1

theorem first_within_of_next {zone : Zone} {horizon : UInt32} {series rest : Series}
    {first : Option Instant} (made : expression.series zone origin = .ok series)
    (yielded : (series.withHorizon horizon).next = .ok (first, rest)) :
    expression.firstWithin zone horizon origin = .ok first := by
  rw [firstWithin, made]
  apply bind_eq_ok_iff.mpr
  refine ⟨series, rfl, ?_⟩
  apply bind_eq_ok_iff.mpr
  exact ⟨(first, rest), yielded, rfl⟩

theorem first_within_spec (wellFormed : expression.WellFormed)
    (originInSpan : InSpan origin.seconds)
    (inSpan : InSpan ((Zone.fixed offset).localCount origin)) (horizon : UInt32) :
    ∃ first, expression.firstWithin (Zone.fixed offset) horizon origin = .ok first ∧
      Instant.IsFirst (expression.firingsWithin (Zone.fixed offset) horizon.toNat origin)
        first := by
  rcases Schedule.of_expression_spec wellFormed with ⟨schedule, made, represents⟩
  have begun := series_eq made represents inSpan
  let series : Series := ⟨schedule, Zone.fixed offset, horizon,
    expression.entry (Zone.fixed offset) origin, origin,
    some (expression.entry (Zone.fixed offset) origin), origin⟩
  have known : series.position = some (expression.entry (Zone.fixed offset) origin) := rfl
  rcases Series.next_spec represents known (on_way_entry inSpan) with ⟨outcome, course, yielded⟩
  have same : series.after outcome = (outcome.map Prod.fst, (series.after outcome).2) := by
    cases outcome <;> rfl
  rw [same] at yielded
  exact ⟨_, first_within_of_next begun yielded, course.is_first originInSpan inSpan⟩

/-- An accepted expression that restricts both day fields joins two accepted expressions,
one for each of these fields. It matches when either matches, its schedule selects a day
when that of either does, and under a fixed offset its first result is the earlier of
theirs, after every instant that is representable in universal time and in local time. -/
theorem day_rule_joins_two_expressions {text : String} (accepted : parse text = .ok expression)
    (byDay : expression.dayOfMonth.isAny = false)
    (byWeekday : expression.dayOfWeek.isAny = false) :
    parse expression.onDays.text = .ok expression.onDays ∧
      parse expression.onWeekdays.text = .ok expression.onWeekdays ∧
      (∀ moment : Moment, expression.Matches moment ↔
        expression.onDays.Matches moment ∨ expression.onWeekdays.Matches moment) ∧
      (∃ schedule days weekdays, Schedule.ofExpression expression = .ok schedule ∧
        Schedule.ofExpression expression.onDays = .ok days ∧
        Schedule.ofExpression expression.onWeekdays = .ok weekdays ∧
        ∀ date : Date, date.Valid → earliestYear < date.year →
          ∃ onDay onWeekday, days.matchesDay date = .ok onDay ∧
            weekdays.matchesDay date = .ok onWeekday ∧
            schedule.matchesDay date = .ok (onDay || onWeekday)) ∧
      ∀ (offset : Int) (origin : Instant) (horizon : UInt32), InSpan origin.seconds →
        InSpan ((Zone.fixed offset).localCount origin) →
          ∃ first onDay onWeekday,
            expression.firstWithin (Zone.fixed offset) horizon origin = .ok first ∧
            expression.onDays.firstWithin (Zone.fixed offset) horizon origin = .ok onDay ∧
            expression.onWeekdays.firstWithin (Zone.fixed offset) horizon origin =
              .ok onWeekday ∧
            first = Option.merge min onDay onWeekday ∧
            (first = none ↔ onDay = none ∧ onWeekday = none) := by
  have wellFormed := well_formed_of_parse accepted
  refine ⟨parse_text wellFormed.on_days, parse_text wellFormed.on_weekdays,
    matches_iff_either byDay byWeekday, ?_, ?_⟩
  · rcases Schedule.of_expression_spec wellFormed with ⟨schedule, made, _⟩
    rcases Schedule.of_expression_open_day made with ⟨madeOnDays, madeOnWeekdays⟩
    refine ⟨schedule, _, _, made, madeOnDays, madeOnWeekdays, ?_⟩
    intro date valid inSpan
    exact Schedule.matches_day_eq_or made byDay byWeekday valid inSpan
  · intro offset origin horizon originInSpan inSpan
    rcases first_within_spec wellFormed originInSpan inSpan horizon with ⟨first, asked, isFirst⟩
    rcases first_within_spec wellFormed.on_days originInSpan inSpan horizon with
      ⟨onDay, dayAsked, dayFirst⟩
    rcases first_within_spec wellFormed.on_weekdays originInSpan inSpan horizon with
      ⟨onWeekday, weekdayAsked, weekdayFirst⟩
    rw [firings_within_either byDay byWeekday] at isFirst
    have joined := isFirst.unique (dayFirst.union weekdayFirst)
    refine ⟨first, onDay, onWeekday, asked, dayAsked, weekdayAsked, joined, ?_⟩
    rw [joined, Option.merge_eq_none_iff]

/-- On a Friday or on the 13th, two hours east. From the Friday that is the 13th of September
2024 the next 13th lies beyond a horizon of no month, and the next Friday does not. -/
theorem day_rule_joins_two_expressions_on_friday_13 :
    let expression : Expression :=
      ⟨none, .specific 0, .specific 0, .specific 13, .any, .specific 5⟩
    let zone : Zone := .fixed 7200
    let origin : Instant := .ofUniversal ⟨⟨2024, 9, 13⟩, ⟨21, 59, 30⟩⟩ 0
    let friday : Instant := .ofUniversal ⟨⟨2024, 9, 19⟩, ⟨22, 0, 0⟩⟩ 0
    parse "0 0 13 * 5" = .ok expression ∧ expression.dayOfMonth.isAny = false ∧
      expression.dayOfWeek.isAny = false ∧ InSpan origin.seconds ∧
      InSpan (zone.localCount origin) ∧
      parse expression.onDays.text = .ok expression.onDays ∧
      parse expression.onWeekdays.text = .ok expression.onWeekdays ∧
      expression.onDays.firstWithin zone 0 origin = .ok none ∧
      expression.onWeekdays.firstWithin zone 0 origin = .ok (some friday) ∧
      expression.firstWithin zone 0 origin = .ok (some friday) := by
  intro expression zone origin friday
  have accepted : parse "0 0 13 * 5" = .ok expression := by decide
  have originInSpan : InSpan origin.seconds := by decide
  have inSpan : InSpan (zone.localCount origin) := by decide
  let days : Schedule := ⟨false, .singleton 0, .singleton 0, .singleton 0,
    some (.singleton 13), .stepping 1 12 1, none⟩
  let weekdays : Schedule := ⟨false, .singleton 0, .singleton 0, .singleton 0, none,
    .stepping 1 12 1, some (.singleton 5)⟩
  let start : Moment := ⟨⟨2024, 9, 14⟩, ⟨0, 0, 0⟩⟩
  have nothing : days.search start 0 = .ok none := by
    have nextMonth : days.probe start = .ok (.miss ⟨⟨2024, 10, 1⟩, ⟨0, 0, 0⟩⟩) := by decide
    rw [Schedule.search, Schedule.search_up_to_miss (by decide) nextMonth]
    exact Schedule.search_up_to_beyond (by decide)
  have hit : weekdays.search start 0 = .ok (some ⟨⟨2024, 9, 20⟩, ⟨0, 0, 0⟩⟩) :=
    Schedule.search_up_to_hit (by decide) (by decide)
  have madeOnDays : expression.onDays.series zone origin =
      .ok ⟨days, zone, Series.defaultHorizon, start, origin, some start, origin⟩ :=
    series_of_step (by decide) inSpan (by decide)
  have madeOnWeekdays : expression.onWeekdays.series zone origin =
      .ok ⟨weekdays, zone, Series.defaultHorizon, start, origin, some start, origin⟩ :=
    series_of_step (by decide) inSpan (by decide)
  have noDay : expression.onDays.firstWithin zone 0 origin = .ok none :=
    first_within_of_next madeOnDays (Series.next_ends rfl nothing)
  have theFriday : expression.onWeekdays.firstWithin zone 0 origin = .ok (some friday) :=
    first_within_of_next madeOnWeekdays (Series.next_yields rfl hit (by decide) rfl (by decide))
  rcases day_rule_joins_two_expressions accepted rfl rfl with ⟨readDays, readWeekdays, _, _, joins⟩
  rcases joins 7200 origin 0 originInSpan inSpan with
    ⟨first, onDay, onWeekday, asked, dayAsked, weekdayAsked, joined, _⟩
  have sameDay := noDay.symm.trans dayAsked
  have sameWeekday := theFriday.symm.trans weekdayAsked
  cases sameDay
  cases sameWeekday
  rw [joined] at asked
  exact ⟨accepted, rfl, rfl, originInSpan, inSpan, readDays, readWeekdays, noDay, theFriday, asked⟩

end Expression

end CronSchedule
