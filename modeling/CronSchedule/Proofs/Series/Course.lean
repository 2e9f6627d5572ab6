import CronSchedule.Proofs.Schedule.Search
import CronSchedule.Proofs.Zone.Resolve
import CronSchedule.Series.Basic

/-!
# The course of a series

One advance of a series goes from match to match until one of them yields an
instant or the next match is out of reach. Its course is described by matches and
instants alone, so that what a series does can be read off without its search.
-/

namespace CronSchedule

set_option autoImplicit false

namespace Moment

/-- The moments at which a walk may go on: representable ones, and the beginning of
the first year that is not. -/
def OnWay (moment : Moment) : Prop :=
  moment.Valid ∧ daysBeforeYear firstYear * 86400 ≤ moment.secondCount ∧
    moment.secondCount ≤ daysBeforeYear (lastYear + 1) * 86400

theorem years_of_on_way {moment : Moment} (onWay : moment.OnWay) :
    firstYear ≤ moment.date.year ∧ moment.date.year ≤ lastYear + 1 := by
  obtain ⟨valid, lower, upper⟩ := onWay
  refine ⟨(year_le_iff valid firstYear).mpr lower, ?_⟩
  have notAfter := year_le_iff valid (lastYear + 2)
  have longer : daysBeforeYear (lastYear + 1) < daysBeforeYear (lastYear + 2) := by decide
  omega

end Moment

namespace Expression

/-- Where a walk goes on after a moment: a second later, or at the next whole minute
when the expression has no seconds field. -/
def onward (expression : Expression) (moment : Moment) : Moment :=
  Moment.ofSecondCount
    (if expression.hasSeconds then moment.secondCount + 1 else (moment.secondCount / 60 + 1) * 60)

variable {expression : Expression} {moment : Moment}

/-- Nothing matches between a moment and the one where the walk goes on. -/
theorem onward_le_iff {other : Moment} (valid : moment.Valid) (otherValid : other.Valid)
    (selected : expression.Matches other) : expression.onward moment ≤ other ↔ moment < other := by
  rw [onward, Moment.le_iff_second_count_le (Moment.valid_of_second_count _) otherValid,
    Moment.lt_iff_second_count_lt valid otherValid, Moment.second_count_of_second_count]
  cases withSeconds : expression.second with
  | some rule =>
      rw [if_pos (by rw [hasSeconds, withSeconds]; rfl)]
      omega
  | none =>
      have whole : other.clock.second = 0 := by
        simpa only [SelectsSecond, withSeconds] using selected.2.2.2.2
      have minute : other.secondCount % 60 = 0 := by
        simp only [Moment.secondCount, Clock.secondOfDay, whole]
        omega
      rw [if_neg (by rw [hasSeconds, withSeconds]; decide)]
      omega

theorem valid_onward (expression : Expression) (moment : Moment) :
    (expression.onward moment).Valid := Moment.valid_of_second_count _

theorem lt_onward (expression : Expression) (valid : moment.Valid) :
    moment < expression.onward moment := by
  rw [onward, Moment.lt_iff_second_count_lt valid (Moment.valid_of_second_count _),
    Moment.second_count_of_second_count]
  split
  · omega
  · omega

theorem on_way_onward (expression : Expression) (representable : moment.Representable) :
    (expression.onward moment).OnWay := by
  obtain ⟨lower, upper⟩ := (Moment.representable_iff representable.1).mp representable
  refine ⟨Moment.valid_of_second_count _, ?_⟩
  rw [onward, Moment.second_count_of_second_count]
  split
  · omega
  · omega

theorem month_index_le_onward (expression : Expression) {position : Moment}
    (representable : moment.Representable) (valid : position.Valid)
    (reached : position ≤ moment) :
    position.monthIndex ≤ (expression.onward moment).monthIndex := by
  apply Moment.month_index_mono valid (expression.on_way_onward representable).1
  exact Moment.le_trans reached (Moment.le_of_lt (expression.lt_onward representable.1))

/-- The representable match that a walk comes to first. -/
structure FirstFrom (expression : Expression) (position found : Moment) : Prop where
  representable : found.Representable
  selected : expression.Matches found
  reached : position ≤ found
  least : ∀ other : Moment, other.Representable → expression.Matches other → position ≤ other →
    found ≤ other

/-- Matches after the first one are those from where the walk goes on. -/
theorem FirstFrom.onward_le {position found other : Moment}
    (first : expression.FirstFrom position found) (representable : other.Representable)
    (selected : expression.Matches other) (reached : position ≤ other) (differs : other ≠ found) :
    expression.onward found ≤ other := by
  apply (onward_le_iff first.representable.1 representable.1 selected).mpr
  rcases first.least other representable selected reached with before | same
  · exact before
  · exact absurd same.symm differs

/-- How an advance from a position may go, and what comes out of it: an instant and
where the walk goes on, or nothing when it ends. -/
inductive Course (expression : Expression) (zone : Zone) (horizon : Nat) (floor : Instant) :
    Moment → Option (Instant × Moment) → Prop
  | ends {position : Moment}
      (beyond : ∀ other : Moment, other.Representable → expression.Matches other →
        position ≤ other → position.monthIndex + horizon < other.monthIndex) :
      Course expression zone horizon floor position none
  | yields {position found : Moment} {instant : Instant}
      (first : expression.FirstFrom position found)
      (inReach : found.monthIndex ≤ position.monthIndex + horizon)
      (emitted : zone.Emits floor found instant) :
      Course expression zone horizon floor position (some (instant, expression.onward found))
  | skips {position found : Moment} {outcome : Option (Instant × Moment)}
      (first : expression.FirstFrom position found)
      (inReach : found.monthIndex ≤ position.monthIndex + horizon)
      (passed : ∀ instant, ¬zone.Emits floor found instant)
      (later : Course expression zone horizon floor (expression.onward found) outcome) :
      Course expression zone horizon floor position outcome

end Expression

namespace Schedule

variable {schedule : Schedule} {expression : Expression} {moment : Moment}

theorem step_spec (represents : schedule.Represents expression)
    (representable : moment.Representable) :
    schedule.step moment = .ok (expression.onward moment) := by
  have inSpan : moment.date.year < latestYear := Int.lt_of_le_of_lt representable.2.2 (by decide)
  rw [step, represents.bySecond, Expression.onward]
  cases expression.hasSeconds with
  | true =>
      obtain ⟨next, stepped, nextValid, count⟩ :=
        Moment.next_second_reaches representable.1 inSpan
      rw [if_pos rfl, if_pos rfl, stepped, ← count, Moment.of_second_count_second_count nextValid]
  | false =>
      obtain ⟨next, stepped, nextValid, count⟩ :=
        Moment.next_minute_reaches representable.1 inSpan
      rw [if_neg Bool.false_ne_true, if_neg Bool.false_ne_true, stepped, ← count,
        Moment.of_second_count_second_count nextValid]

end Schedule

namespace Series

variable {schedule : Schedule} {expression : Expression} {zone : Zone} {position found : Moment}

theorem first_from_of_finds {limit : Int} (represents : schedule.Represents expression)
    (finds : schedule.Finds limit position (some found)) (representable : found.Representable) :
    expression.FirstFrom position found := by
  obtain ⟨foundValid, selected, reached, _, clear⟩ := finds
  constructor
  case representable => exact representable
  case selected => exact (represents.fires found foundValid).mp selected
  case reached => exact reached
  case least =>
      intro other otherRepresentable otherSelected ordered
      apply clear other otherRepresentable.1 _ ordered
      exact (represents.fires other otherRepresentable.1).mpr otherSelected

/-- Beyond a match that is not representable no match is. -/
theorem unrepresentable_of_finds {limit : Int} (represents : schedule.Represents expression)
    (onWay : position.OnWay) (finds : schedule.Finds limit position (some found))
    (unrepresentable : ¬found.Representable) {other : Moment} (representable : other.Representable)
    (ordered : position ≤ other) : ¬expression.Matches other := by
  intro selected
  obtain ⟨foundValid, _, reached, _, clear⟩ := finds
  have later := clear other representable.1
    ((represents.fires other representable.1).mpr selected) ordered
  rw [Moment.le_iff_second_count_le foundValid representable.1] at later
  rw [Moment.le_iff_second_count_le onWay.1 foundValid] at reached
  apply unrepresentable
  apply (Moment.representable_iff foundValid).mpr
  have inSpan := (Moment.representable_iff representable.1).mp representable
  exact ⟨Int.le_trans onWay.2.1 reached, Int.lt_of_le_of_lt later inSpan.2⟩

theorem finds_of_search {horizon : UInt32} {outcome : Except Fault (Option Moment)}
    (represents : schedule.Represents expression) (onWay : position.OnWay)
    (searched : schedule.search position horizon = outcome) :
    ∃ result, outcome = .ok result ∧
      schedule.Finds (position.monthIndex + horizon.toNat) position result := by
  obtain ⟨lower, upper⟩ := Moment.years_of_on_way onWay
  rw [← searched]
  exact Schedule.search_spec represents onWay.1 lower upper horizon

/-- Every advance ends, in one of the ways that a course may go. -/
theorem advance_course (represents : schedule.Represents expression) (horizon : UInt32)
    (floor : Instant) (onWay : position.OnWay) :
    ∃ outcome, advance schedule zone horizon floor position = .ok outcome ∧
      expression.Course zone horizon.toNat floor position outcome := by
  fun_induction advance schedule zone horizon floor position with
  | case1 position fault searched =>
      obtain ⟨result, failed, _⟩ := finds_of_search represents onWay searched
      cases failed
  | case2 position searched =>
      obtain ⟨result, ended, finds⟩ := finds_of_search represents onWay searched
      rw [← Except.ok.inj ended] at finds
      refine ⟨none, rfl, Expression.Course.ends ?_⟩
      intro other representable selected ordered
      apply finds other representable.1 _ ordered
      exact (represents.fires other representable.1).mpr selected
  | case3 position found searched representable fault stepped =>
      rw [Schedule.step_spec represents representable] at stepped
      cases stepped
  | case4 position found searched representable resume stepped instant resolved =>
      obtain ⟨result, hit, finds⟩ := finds_of_search represents onWay searched
      rw [← Except.ok.inj hit] at finds
      rw [Schedule.step_spec represents representable] at stepped
      rw [← Except.ok.inj stepped]
      have first := first_from_of_finds represents finds representable
      have emitted := (Zone.resolve_eq_some_iff representable.1).mp resolved
      exact ⟨_, rfl, Expression.Course.yields first finds.2.2.2.1 emitted⟩
  | case5 position found searched representable resume stepped resolved _ induction =>
      obtain ⟨result, hit, finds⟩ := finds_of_search represents onWay searched
      rw [← Except.ok.inj hit] at finds
      rw [Schedule.step_spec represents representable] at stepped
      have resumed : expression.onward found = resume := Except.ok.inj stepped
      have first := first_from_of_finds represents finds representable
      have passed := (Zone.resolve_eq_none_iff representable.1).mp resolved
      obtain ⟨outcome, advanced, course⟩ :=
        induction (resumed ▸ expression.on_way_onward representable)
      rw [← resumed] at course
      exact ⟨outcome, advanced, Expression.Course.skips first finds.2.2.2.1 passed course⟩
  | case6 position found searched unrepresentable =>
      obtain ⟨result, hit, finds⟩ := finds_of_search represents onWay searched
      rw [← Except.ok.inj hit] at finds
      refine ⟨none, rfl, Expression.Course.ends ?_⟩
      intro other representable selected ordered
      exact absurd selected
        (unrepresentable_of_finds represents onWay finds unrepresentable representable ordered)

/-- One round of an advance, without the proofs that it ends. -/
theorem advance_eq (schedule : Schedule) (zone : Zone) (horizon : UInt32) (floor : Instant)
    (position : Moment) :
    advance schedule zone horizon floor position =
      match schedule.search position horizon with
      | .error fault => .error fault
      | .ok none => .ok none
      | .ok (some found) =>
          if found.Representable then
            match schedule.step found with
            | .error fault => .error fault
            | .ok resume =>
                match zone.resolve floor found with
                | some instant => .ok (some (instant, resume))
                | none => advance schedule zone horizon floor resume
          else .ok none := by
  rw [advance]
  split
  case h_1 fault searched => rw [searched]
  case h_2 searched => rw [searched]
  case h_3 found searched =>
      simp only [searched]
      by_cases representable : found.Representable
      · simp only [dif_pos representable, if_pos representable]
        split
        case h_1 fault stepped => simp only [stepped]
        case h_2 resume stepped =>
            cases zone.resolve floor found with
            | none => simp only [stepped]
            | some instant => simp only [stepped]
      · rw [dif_neg representable, if_neg representable]

/-- A match that stands for an instant after the floor ends the advance. -/
theorem advance_yields {horizon : UInt32} {floor instant : Instant} {resume : Moment}
    (searched : schedule.search position horizon = .ok (some found))
    (representable : found.Representable) (stepped : schedule.step found = .ok resume)
    (resolved : zone.resolve floor found = some instant) :
    advance schedule zone horizon floor position = .ok (some (instant, resume)) := by
  rw [advance_eq]
  simp only [searched, if_pos representable, stepped, resolved]

/-- After a match that stands for no instant after the floor the advance goes on. -/
theorem advance_skips {horizon : UInt32} {floor : Instant} {resume : Moment}
    (searched : schedule.search position horizon = .ok (some found))
    (representable : found.Representable) (stepped : schedule.step found = .ok resume)
    (unresolved : zone.resolve floor found = none) :
    advance schedule zone horizon floor position =
      advance schedule zone horizon floor resume := by
  rw [advance_eq]
  simp only [searched, if_pos representable, stepped, unresolved]

def halted (series : Series) : Series := { series with position := none }

def resumed (series : Series) (instant : Instant) (resume : Moment) : Series :=
  { series with position := some resume, floor := instant }

/-- The occurrence that an advance comes to, and the series that is left after it. -/
def after (series : Series) : Option (Instant × Moment) → Option Instant × Series
  | none => (none, series.halted)
  | some (instant, resume) => (some instant, series.resumed instant resume)

theorem next_of_advance {series : Series} {outcome : Option (Instant × Moment)}
    (known : series.position = some position)
    (advanced : advance series.schedule series.zone series.horizon series.floor position =
      .ok outcome) :
    series.next = .ok (series.after outcome) := by
  simp only [next, known, advanced]
  cases outcome with
  | none => rfl
  | some pair => rfl

theorem take_ends {series rest : Series} (ended : series.next = .ok (none, rest)) (count : Nat) :
    series.take (count + 1) = .ok ([], rest) := by
  simp only [take, ended]

theorem take_continues {series rest last : Series} {instant : Instant} {count : Nat}
    {later : List Instant} (yielded : series.next = .ok (some instant, rest))
    (taken : rest.take count = .ok (later, last)) :
    series.take (count + 1) = .ok (instant :: later, last) := by
  simp only [take, yielded, taken, Except.map]

/-- A first match that stands for an instant after the floor is what the series yields. -/
theorem next_yields {series : Series} {instant : Instant} {resume : Moment}
    (known : series.position = some position)
    (searched : series.schedule.search position series.horizon = .ok (some found))
    (representable : found.Representable) (stepped : series.schedule.step found = .ok resume)
    (resolved : series.zone.resolve series.floor found = some instant) :
    series.next = .ok (some instant, series.resumed instant resume) :=
  next_of_advance known (advance_yields searched representable stepped resolved)

theorem next_ends {series : Series} (known : series.position = some position)
    (searched : series.schedule.search position series.horizon = .ok none) :
    series.next = .ok (none, series.halted) := by
  have ended : advance series.schedule series.zone series.horizon series.floor position =
      .ok none := by
    rw [advance_eq, searched]
  exact next_of_advance known ended

/-- What a series yields next is what the course of its advance says. -/
theorem next_spec {series : Series} (represents : series.schedule.Represents expression)
    (known : series.position = some position) (onWay : position.OnWay) :
    ∃ outcome,
      expression.Course series.zone series.horizon.toNat series.floor position outcome ∧
      series.next = .ok (series.after outcome) := by
  obtain ⟨outcome, advanced, course⟩ := advance_course represents series.horizon series.floor onWay
  exact ⟨outcome, course, next_of_advance known advanced⟩

end Series

namespace Expression

variable {expression : Expression} {zone : Zone} {horizon : Nat} {origin floor instant : Instant}
  {position resume : Moment}

/-- The local time of what an advance yields is a match that lies on its way. -/
theorem Course.local_moment (course : expression.Course zone horizon floor position
    (some (instant, resume))) :
    (zone.localMoment instant).Representable ∧ expression.Matches (zone.localMoment instant) ∧
      position ≤ zone.localMoment instant := by
  generalize same : some (instant, resume) = outcome at course
  induction course with
  | ends => cases same
  | yields first _ emitted =>
      cases same
      rw [(Zone.shows_of_emits emitted).2.2]
      exact ⟨first.representable, first.selected, first.reached⟩
  | skips first _ _ _ induction =>
      obtain ⟨representable, selected, reached⟩ := induction same
      refine ⟨representable, selected, ?_⟩
      have passed := Moment.lt_of_lt_of_le (expression.lt_onward first.representable.1) reached
      exact Moment.le_of_lt (Moment.lt_of_le_of_lt first.reached passed)

/-- Where the walk of a series after an instant begins. -/
def entry (expression : Expression) (zone : Zone) (origin : Instant) : Moment :=
  expression.onward (zone.localMoment origin)

theorem on_way_entry (inSpan : InSpan (zone.localCount origin)) :
    (expression.entry zone origin).OnWay :=
  expression.on_way_onward ((Moment.representable_of_second_count_iff _).mpr inSpan)

/-- After an instant the walk goes on where a series made for that instant begins. -/
theorem Course.resume_eq
    (course : expression.Course zone horizon floor position (some (instant, resume))) :
    resume = expression.entry zone instant := by
  generalize same : some (instant, resume) = outcome at course
  induction course with
  | ends => cases same
  | yields _ _ emitted =>
      cases same
      rw [entry, (Zone.shows_of_emits emitted).2.2]
  | skips _ _ _ _ induction => exact induction same

theorem Course.on_way
    (course : expression.Course zone horizon floor position (some (instant, resume))) :
    resume.OnWay := by
  rw [course.resume_eq]
  exact expression.on_way_onward course.local_moment.1

theorem series_of_step {schedule : Schedule} {start : Moment}
    (made : Schedule.ofExpression expression = .ok schedule)
    (inSpan : InSpan (zone.localCount origin))
    (begun : schedule.step (zone.localMoment origin) = .ok start) :
    expression.series zone origin =
      .ok ⟨schedule, zone, Series.defaultHorizon, start, origin, some start, origin⟩ := by
  apply bind_eq_ok_iff.mpr
  refine ⟨schedule, made, ?_⟩
  rw [Series.ofSchedule, if_pos inSpan]
  apply bind_eq_ok_iff.mpr
  exact ⟨start, begun, rfl⟩

theorem series_eq {schedule : Schedule} (made : Schedule.ofExpression expression = .ok schedule)
    (represents : schedule.Represents expression) (inSpan : InSpan (zone.localCount origin)) :
    expression.series zone origin = .ok ⟨schedule, zone, Series.defaultHorizon,
      expression.entry zone origin, origin, some (expression.entry zone origin), origin⟩ := by
  apply series_of_step made inSpan
  apply Schedule.step_spec represents
  exact (Moment.representable_of_second_count_iff (zone.localCount origin)).mpr inSpan

/-- Every accepted expression has a series after an instant whose local time is
representable. -/
theorem series_spec {text : String} (accepted : parse text = .ok expression)
    (inSpan : InSpan (zone.localCount origin)) :
    ∃ schedule : Schedule, schedule.Represents expression ∧
      expression.series zone origin = .ok ⟨schedule, zone, Series.defaultHorizon,
        expression.entry zone origin, origin, some (expression.entry zone origin), origin⟩ := by
  obtain ⟨schedule, made, represents⟩ :=
    Schedule.of_expression_spec (well_formed_of_parse accepted)
  exact ⟨schedule, represents, series_eq made represents inSpan⟩

end Expression

end CronSchedule
