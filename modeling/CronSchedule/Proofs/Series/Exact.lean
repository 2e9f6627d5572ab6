import CronSchedule.Proofs.Series.Course
import CronSchedule.Proofs.Zone.Forward

/-!
# Exact series

In a zone whose clocks are never set back a series yields every firing after its
origin, one by one. The state of the series keeps all later firings ahead of the
moment where the walk goes on.
-/

namespace CronSchedule

set_option autoImplicit false

namespace Expression

/-- The expression fires when a second begins whose local time is representable and
matches. -/
def FiresAt (expression : Expression) (zone : Zone) (instant : Instant) : Prop :=
  instant.nanoseconds = 0 ∧ InSpan instant.seconds ∧ (zone.localMoment instant).Representable ∧
    expression.Matches (zone.localMoment instant)

/-- The first firing after an instant. -/
def FiresNext (expression : Expression) (zone : Zone) (previous instant : Instant) : Prop :=
  expression.FiresAt zone instant ∧ previous < instant ∧
    ∀ other, expression.FiresAt zone other → previous < other → instant ≤ other

/-- No firing after an instant lies within the horizon, counted in months from the
moment right after the local time of that instant. -/
def FiresBeyond (expression : Expression) (zone : Zone) (horizon : Nat) (previous : Instant) :
    Prop :=
  ∀ other, expression.FiresAt zone other → previous < other →
    (expression.entry zone previous).monthIndex + horizon < (zone.localMoment other).monthIndex

/-- Each outcome after `previous` is the next firing, until none lies within the
horizon; from then on there are no more. -/
def Exact (expression : Expression) (zone : Zone) (horizon : Nat) :
    Instant → List (Option Instant) → Prop
  | _, [] => True
  | previous, some instant :: later =>
      expression.FiresNext zone previous instant ∧ expression.Exact zone horizon instant later
  | previous, none :: later =>
      expression.FiresBeyond zone horizon previous ∧ ∀ outcome ∈ later, outcome = none

theorem FiresNext.unique {expression : Expression} {zone : Zone} {previous first second : Instant}
    (next : expression.FiresNext zone previous first)
    (other : expression.FiresNext zone previous second) : first = second :=
  le_antisymm (next.2.2 second other.1 other.2.1) (other.2.2 first next.1 next.2.1)

/-- After any number of firings the local time is still representable. -/
theorem in_span_of_chain {expression : Expression} {zone : Zone} {origin : Instant}
    {instants : List Instant} (inSpan : InSpan (zone.localCount origin))
    (chained : (origin :: instants).IsChain (expression.FiresNext zone)) :
    InSpan (zone.localCount (instants.getLastD origin)) := by
  induction instants generalizing origin with
  | nil => exact inSpan
  | cons instant later induction =>
      obtain ⟨next, continued⟩ := List.isChain_cons_cons.mp chained
      rw [List.getLastD_cons]
      exact induction ((Moment.representable_of_second_count_iff _).mp next.1.2.2.1) continued

/-- All firings after the floor lie ahead of the position on the wall clock. -/
def Ahead (expression : Expression) (zone : Zone) (floor : Instant) (position : Moment) : Prop :=
  ∀ instant, expression.FiresAt zone instant → floor < instant →
    position ≤ zone.localMoment instant

variable {expression : Expression} {zone : Zone} {horizon : Nat} {floor : Instant}
  {position found : Moment}

theorem ahead_entry (forward : zone.NeverSetBack) (previous : Instant) :
    expression.Ahead zone previous (expression.entry zone previous) := by
  intro instant fires later
  apply (onward_le_iff (Moment.valid_of_second_count _) fires.2.2.1.1 fires.2.2.2).mpr
  exact Zone.local_moment_lt forward (Zone.seconds_lt_of_lt fires.1 later)

theorem first_le_of_ahead (first : expression.FirstFrom position found)
    (ahead : expression.Ahead zone floor position) {instant : Instant}
    (fires : expression.FiresAt zone instant) (later : floor < instant) :
    found ≤ zone.localMoment instant :=
  first.least _ fires.2.2.1 fires.2.2.2 (ahead instant fires later)

theorem ahead_of_passed (forward : zone.NeverSetBack)
    (first : expression.FirstFrom position found)
    (passed : ∀ instant, ¬zone.Emits floor found instant)
    (ahead : expression.Ahead zone floor position) :
    expression.Ahead zone floor (expression.onward found) := by
  intro instant fires later
  apply first.onward_le fires.2.2.1 fires.2.2.2 (ahead instant fires later)
  intro same
  exact passed instant (Zone.emits_of_shows forward ⟨fires.1, fires.2.1, same⟩ later)

theorem fires_next_of_emits (forward : zone.NeverSetBack) {instant : Instant}
    (first : expression.FirstFrom position found) (emitted : zone.Emits floor found instant)
    (ahead : expression.Ahead zone floor position) : expression.FiresNext zone floor instant := by
  obtain ⟨whole, inSpan, same⟩ := Zone.shows_of_emits emitted
  refine ⟨⟨whole, inSpan, ?_, ?_⟩, emitted.1, ?_⟩
  · rw [same]
    exact first.representable
  · rw [same]
    exact first.selected
  · intro other fires later
    have reached := first_le_of_ahead first ahead fires later
    intro before
    have moved := Zone.local_moment_lt forward (Zone.seconds_lt_of_lt whole before)
    rw [same] at moved
    exact Moment.lt_irrefl _ (Moment.lt_of_lt_of_le moved reached)

/-- What an advance must tell of the firings after `floor` when the walk stands at the
position: the next one, or that none lies within the horizon. -/
def Tells (expression : Expression) (zone : Zone) (horizon : Nat) (floor : Instant)
    (position : Moment) : Option (Instant × Moment) → Prop
  | none => ∀ other, expression.FiresAt zone other → floor < other →
      position.monthIndex + horizon < (zone.localMoment other).monthIndex
  | some (instant, resume) =>
      expression.FiresNext zone floor instant ∧ resume = expression.entry zone instant

/-- Skipped matches leave all firings ahead, so the course finds the next one. -/
theorem Course.tells (forward : zone.NeverSetBack) {outcome : Option (Instant × Moment)}
    (course : expression.Course zone horizon floor position outcome) (valid : position.Valid)
    (ahead : expression.Ahead zone floor position) :
    expression.Tells zone horizon floor position outcome := by
  induction course with
  | ends beyond =>
      intro other fires later
      exact beyond _ fires.2.2.1 fires.2.2.2 (ahead other fires later)
  | yields first inReach emitted =>
      have next := fires_next_of_emits forward first emitted ahead
      refine ⟨next, ?_⟩
      have shown := Zone.shows_of_emits emitted
      rw [entry, shown.2.2]
  | @skips position found outcome first inReach passed _ induction =>
      have onWay := expression.on_way_onward first.representable
      have told := induction onWay.1 (ahead_of_passed forward first passed ahead)
      cases outcome with
      | some pair => exact told
      | none =>
          intro other fires later
          have month := month_index_le_onward expression first.representable valid
            first.reached
          have beyond := told other fires later
          omega

end Expression

namespace Series

/-- The outcomes of so many calls for the next occurrence, also after the end. -/
def nexts (series : Series) : Nat → Except Fault (List (Option Instant) × Series)
  | 0 => .ok ([], series)
  | count + 1 =>
      match series.next with
      | .error fault => .error fault
      | .ok (outcome, rest) =>
          (rest.nexts count).map fun (later, last) => (outcome :: later, last)

theorem nexts_continues {series rest last : Series} {outcome : Option Instant} {count : Nat}
    {later : List (Option Instant)} (yielded : series.next = .ok (outcome, rest))
    (continued : rest.nexts count = .ok (later, last)) :
    series.nexts (count + 1) = .ok (outcome :: later, last) := by
  simp only [nexts, yielded, continued, Except.map]

/-- A series that has ended stays ended. -/
theorem nexts_of_ended (series : Series) (ended : series.position = none) (count : Nat) :
    series.nexts count = .ok (List.replicate count none, series) := by
  induction count with
  | zero => rfl
  | succ count induction =>
      have nothing : series.next = .ok (none, series) := by
        simp only [next, ended]
      exact nexts_continues nothing induction

theorem nexts_exact {expression : Expression} (series : Series)
    (represents : series.schedule.Represents expression) (forward : series.zone.NeverSetBack)
    (known : series.position = some (expression.entry series.zone series.floor))
    (onWay : (expression.entry series.zone series.floor).OnWay) (count : Nat) :
    ∃ outcomes rest, series.nexts count = .ok (outcomes, rest) ∧ outcomes.length = count ∧
      expression.Exact series.zone series.horizon.toNat series.floor outcomes := by
  induction count generalizing series with
  | zero => exact ⟨[], series, rfl, rfl, trivial⟩
  | succ count induction =>
      obtain ⟨outcome, course, yielded⟩ := next_spec represents known onWay
      have told := course.tells forward onWay.1 (Expression.ahead_entry forward series.floor)
      cases outcome with
      | none =>
          have ended := nexts_of_ended series.halted rfl count
          refine ⟨none :: List.replicate count none, series.halted, nexts_continues yielded ended,
            ?_, told, ?_⟩
          · rw [List.length_cons, List.length_replicate]
          · intro outcome member
            exact List.eq_of_mem_replicate member
      | some pair =>
          obtain ⟨instant, resume⟩ := pair
          obtain ⟨next, rfl⟩ := told
          obtain ⟨later, rest, continued, length, exact_later⟩ :=
            induction (series.resumed instant (expression.entry series.zone instant)) represents
              forward rfl course.on_way
          refine ⟨some instant :: later, rest, nexts_continues yielded continued, ?_, next,
            exact_later⟩
          rw [List.length_cons, length]

/-- What is taken is one next firing after the other. Fewer than asked for are taken only
when no firing after the last one lies within the horizon. -/
theorem take_fires {expression : Expression} (series : Series)
    (represents : series.schedule.Represents expression) (forward : series.zone.NeverSetBack)
    (known : series.position = some (expression.entry series.zone series.floor))
    (onWay : (expression.entry series.zone series.floor).OnWay) (count : Nat) :
    ∃ instants rest, series.take count = .ok (instants, rest) ∧ instants.length ≤ count ∧
      (series.floor :: instants).IsChain (expression.FiresNext series.zone) ∧
      (instants.length = count ∨ expression.FiresBeyond series.zone series.horizon.toNat
        (instants.getLastD series.floor)) := by
  induction count generalizing series with
  | zero => exact ⟨[], series, rfl, Nat.le_refl 0, List.isChain_singleton _, Or.inl rfl⟩
  | succ count induction =>
      obtain ⟨outcome, course, yielded⟩ := next_spec represents known onWay
      have told := course.tells forward onWay.1 (Expression.ahead_entry forward series.floor)
      cases outcome with
      | none =>
          exact ⟨[], series.halted, take_ends yielded count, Nat.zero_le _,
            List.isChain_singleton _, Or.inr told⟩
      | some pair =>
          obtain ⟨instant, resume⟩ := pair
          obtain ⟨next, rfl⟩ := told
          obtain ⟨instants, rest, taken, length, chained, ends⟩ :=
            induction (series.resumed instant (expression.entry series.zone instant)) represents
              forward rfl course.on_way
          refine ⟨instant :: instants, rest, take_continues yielded taken,
            Nat.succ_le_succ length, List.isChain_cons_cons.mpr ⟨next, chained⟩, ?_⟩
          rw [List.length_cons, List.getLastD_cons]
          exact ends.imp_left (congrArg Nat.succ)

end Series

namespace Expression

/-- Where clocks are never set back, each call for the next occurrence of an accepted
expression yields exactly the next firing. -/
theorem occurrences_exact {text : String} {expression : Expression}
    (accepted : parse text = .ok expression) {zone : Zone} (forward : zone.NeverSetBack)
    {origin : Instant} (inSpan : InSpan (zone.localCount origin)) (horizon : UInt32)
    (count : Nat) :
    ∃ series outcomes rest, expression.series zone origin = .ok series ∧
      (series.withHorizon horizon).nexts count = .ok (outcomes, rest) ∧
      outcomes.length = count ∧ expression.Exact zone horizon.toNat origin outcomes := by
  obtain ⟨schedule, represents, made⟩ := series_spec accepted inSpan
  obtain ⟨outcomes, rest, run, length, exactly⟩ := Series.nexts_exact
    ⟨schedule, zone, horizon, expression.entry zone origin, origin,
      some (expression.entry zone origin), origin⟩
    represents forward rfl (on_way_entry inSpan) count
  exact ⟨_, outcomes, rest, made, run, length, exactly⟩

/-- A daily time inside the hour that the clock leaps over in spring. That day has no
occurrence. -/
theorem occurrences_exact_over_spring_gap :
    let expression : Expression := ⟨none, .specific 30, .specific 2, .any, .any, .any⟩
    let zone : Zone := ⟨3600, [(⟨63847443600, 0⟩, 7200)]⟩
    let origin : Instant := ⟨63847393200, 0⟩
    let first : Instant := ⟨63847528200, 0⟩
    let second : Instant := ⟨63847614600, 0⟩
    parse "30 2 * * *" = .ok expression ∧ zone.NeverSetBack ∧ InSpan (zone.localCount origin) ∧
      ∃ series rest, expression.series zone origin = .ok series ∧
        (series.withHorizon 60).nexts 2 = .ok ([some first, some second], rest) ∧
        expression.Exact zone 60 origin [some first, some second] := by
  intro expression zone origin first second
  have accepted : parse "30 2 * * *" = .ok expression := by decide
  have forward : zone.NeverSetBack := Zone.never_set_back_of_ascending (by decide)
  have inSpan : InSpan (zone.localCount origin) := by decide
  let schedule : Schedule := ⟨false, .singleton 0, .singleton 30, .singleton 2, none,
    .stepping 1 12 1, none⟩
  let start : Moment := ⟨⟨2024, 3, 30⟩, ⟨12, 1, 0⟩⟩
  let series : Series :=
    ⟨schedule, zone, Series.defaultHorizon, start, origin, some start, origin⟩
  have made : Schedule.ofExpression expression = .ok schedule := by decide
  have seriesMade : expression.series zone origin = .ok series :=
    series_of_step made inSpan (by decide)
  let gap : Moment := ⟨⟨2024, 3, 31⟩, ⟨2, 30, 0⟩⟩
  let afterGap : Moment := ⟨⟨2024, 3, 31⟩, ⟨2, 31, 0⟩⟩
  let april : Moment := ⟨⟨2024, 4, 1⟩, ⟨2, 30, 0⟩⟩
  let afterApril : Moment := ⟨⟨2024, 4, 1⟩, ⟨2, 31, 0⟩⟩
  let nextDay : Moment := ⟨⟨2024, 4, 2⟩, ⟨2, 30, 0⟩⟩
  have toGap : schedule.search start 60 = .ok (some gap) := by
    have missed : schedule.probe start = .ok (.miss ⟨⟨2024, 3, 31⟩, ⟨0, 0, 0⟩⟩) := by decide
    rw [Schedule.search, Schedule.search_up_to_miss (by decide) missed]
    exact Schedule.search_up_to_hit (by decide) (by decide)
  have toApril : schedule.search afterGap 60 = .ok (some april) := by
    let resumes : List Moment := [⟨⟨2024, 3, 31⟩, ⟨3, 0, 0⟩⟩, ⟨⟨2024, 4, 1⟩, ⟨0, 0, 0⟩⟩]
    rw [Schedule.search, Schedule.search_up_to_misses resumes (by decide)]
    exact Schedule.search_up_to_hit (by decide) (by decide)
  have toNextDay : schedule.search afterApril 60 = .ok (some nextDay) := by
    let resumes : List Moment := [⟨⟨2024, 4, 1⟩, ⟨3, 0, 0⟩⟩, ⟨⟨2024, 4, 2⟩, ⟨0, 0, 0⟩⟩]
    rw [Schedule.search, Schedule.search_up_to_misses resumes (by decide)]
    exact Schedule.search_up_to_hit (by decide) (by decide)
  have skipped : Series.advance schedule zone 60 origin start =
      Series.advance schedule zone 60 origin afterGap :=
    Series.advance_skips toGap (by decide) rfl (by decide)
  have advanced : Series.advance schedule zone 60 origin start =
      .ok (some (first, afterApril)) :=
    skipped.trans (Series.advance_yields toApril (by decide) rfl (by decide))
  have asked : (series.withHorizon 60).next =
      .ok (some first, (series.withHorizon 60).resumed first afterApril) := by
    have known : (series.withHorizon 60).position = some start := rfl
    exact Series.next_of_advance known advanced
  have again : ((series.withHorizon 60).resumed first afterApril).next = .ok (some second, _) :=
    Series.next_yields rfl toNextDay (by decide) rfl (by decide)
  have counted : (series.withHorizon 60).nexts 2 = .ok ([some first, some second], _) :=
    Series.nexts_continues asked (Series.nexts_continues again rfl)
  obtain ⟨_, _, _, otherMade, ran, _, exactly⟩ :=
    occurrences_exact accepted forward inSpan 60 2
  rw [seriesMade] at otherMade
  cases otherMade
  rw [counted] at ran
  cases ran
  exact ⟨accepted, forward, inSpan, series, _, seriesMade, counted, exactly⟩

end Expression

end CronSchedule
