import CronSchedule.Proofs.Expression.ReadBack
import CronSchedule.Proofs.Series.Course
import CronSchedule.Series.Session

/-!
# Sound series meet no fault

A series is sound when its schedule fires at the moments of an expression and its walk
stands on the representable wall clock or right after it. Every command keeps it sound
and gets an answer. All moments that its search has in view are moments of the
calendar, in years of the span, however far its horizon reaches.
-/

namespace CronSchedule

set_option autoImplicit false

/-- A moment that the calendar shows in a year of the span, before which another year
of the span has been completed. -/
def Moment.Safe (moment : Moment) : Prop :=
  moment.Valid ∧ earliestYear < moment.date.year ∧ moment.date.year ≤ latestYear

/-- Each part of the moment but the year can be counted one further within a byte. -/
def Moment.FitsBytes (moment : Moment) : Prop :=
  moment.date.month < 255 ∧ moment.date.day < 255 ∧ moment.clock.hour < 255 ∧
    moment.clock.minute < 255 ∧ moment.clock.second < 255

theorem Moment.fits_bytes_of_valid {moment : Moment} (valid : moment.Valid) :
    moment.FitsBytes := by
  obtain ⟨date, hour, minute, second⟩ := valid
  have month := Date.valid_month date
  have day := Nat.le_trans date.2 (month_length_le _ _)
  unfold FitsBytes
  omega

namespace Schedule

/-- The moments that a search within a limit has in view one after the other, and the
one that it finds. Each is the outcome of a look at the one before. -/
inductive Views (schedule : Schedule) (limit : Int) : Moment → Moment → Prop
  | here {moment : Moment} : Views schedule limit moment moment
  | found {moment found : Moment} (inReach : moment.monthIndex ≤ limit)
      (looked : schedule.probe moment = .ok (.hit found)) : Views schedule limit moment found
  | onward {moment resume seen : Moment} (inReach : moment.monthIndex ≤ limit)
      (looked : schedule.probe moment = .ok (.miss resume))
      (later : Views schedule limit resume seen) : Views schedule limit moment seen

variable {schedule : Schedule} {expression : Expression} {limit : Int} {moment resume : Moment}

/-- A look that fails goes on in the month in view or in the next one. -/
theorem month_index_of_miss (valid : moment.Valid) (resumeValid : resume.Valid)
    (looked : schedule.probe moment = .ok (.miss resume)) :
    moment.monthIndex ≤ resume.monthIndex ∧ resume.monthIndex ≤ moment.monthIndex + 1 := by
  obtain ⟨forward, advances⟩ := follows_probe looked
  have month := Date.valid_month valid.1
  have resumeMonth := Date.valid_month resumeValid.1
  refine ⟨Moment.month_index_mono valid resumeValid (Moment.le_of_lt forward), ?_⟩
  simp only [Advances, Date.monthRank] at advances
  simp only [Moment.monthIndex, Date.monthIndex]
  omega

theorem year_bounds_of_reach (bounded : limit < latestYear * 12) (valid : moment.Valid)
    (inReach : moment.monthIndex ≤ limit + 1) : moment.date.year ≤ latestYear := by
  have months := Moment.month_index_bounds valid
  omega

theorem Views.safe (represents : schedule.Represents expression)
    (bounded : limit < latestYear * 12) {seen : Moment} (viewed : schedule.Views limit moment seen)
    (valid : moment.Valid) (lower : earliestYear < moment.date.year)
    (inReach : moment.monthIndex ≤ limit + 1) : seen.Safe := by
  have answers : ∀ {current : Moment} {probe : Probe}, current.Valid →
      earliestYear < current.date.year → current.monthIndex ≤ limit →
      schedule.probe current = .ok probe → schedule.Answers current probe := by
    intro current probe currentValid currentLower within looked
    have upper : current.date.year < latestYear := by
      have months := Moment.month_index_bounds currentValid
      omega
    obtain ⟨other, answered, answers⟩ := probe_spec represents currentValid currentLower upper
    rw [looked] at answered
    rwa [← Except.ok.inj answered] at answers
  -- A view may lie one month beyond the limit, where no further look is taken.
  induction viewed with
  | here => exact ⟨valid, lower, year_bounds_of_reach bounded valid inReach⟩
  | @found moment found within looked =>
      obtain ⟨foundValid, _, sameMonth, _⟩ := answers valid lower within looked
      have months := Moment.month_index_bounds valid
      have foundMonths := Moment.month_index_bounds foundValid
      rw [← sameMonth] at within
      refine ⟨foundValid, ?_, year_bounds_of_reach bounded foundValid (Int.le_add_one within)⟩
      omega
  | @onward moment resume seen within looked _ induction =>
      obtain ⟨resumeValid, _⟩ := answers valid lower within looked
      obtain ⟨forward, near⟩ := month_index_of_miss valid resumeValid looked
      have months := Moment.month_index_bounds valid
      have resumeMonths := Moment.month_index_bounds resumeValid
      have resumeLower : earliestYear < resume.date.year := by omega
      exact induction resumeValid resumeLower (by omega)

end Schedule

namespace Series

/-- The moments that the next advance of a series has in view from a position on: those
of its first search and, after a match that yields no instant, those from there on. -/
inductive Views (series : Series) : Moment → Moment → Prop
  | search {position seen : Moment}
      (viewed : series.schedule.Views (position.monthIndex + series.horizon.toNat) position seen) :
      Views series position seen
  | onward {position found resume seen : Moment}
      (searched : series.schedule.search position series.horizon = .ok (some found))
      (representable : found.Representable) (stepped : series.schedule.step found = .ok resume)
      (passed : series.zone.resolve series.floor found = none)
      (later : Views series resume seen) : Views series position seen

structure Sound (series : Series) (expression : Expression) : Prop where
  represents : series.schedule.Represents expression
  startOnWay : series.start.OnWay
  onWay : ∀ position, series.position = some position → position.OnWay

variable {series : Series} {expression : Expression}

theorem Views.safe (represents : series.schedule.Represents expression) {position seen : Moment}
    (viewed : series.Views position seen) (onWay : position.OnWay) : seen.Safe := by
  induction viewed with
  | @search position seen viewed =>
      obtain ⟨lower, upper⟩ := Moment.years_of_on_way onWay
      have index := Moment.month_index_bounds onWay.1
      have months := series.horizon.toNat_lt
      simp only [Moment.firstYear] at lower
      simp only [Moment.lastYear] at upper
      apply viewed.safe represents
      · simp only [latestYear]
        omega
      · exact onWay.1
      · simp only [earliestYear]
        omega
      · omega
  | onward _ representable stepped _ _ induction =>
      rw [Schedule.step_spec represents representable] at stepped
      rw [← Except.ok.inj stepped] at induction
      exact induction (expression.on_way_onward representable)

theorem Sound.next (sound : series.Sound expression) :
    ∃ outcome rest, series.next = .ok (outcome, rest) ∧ rest.Sound expression := by
  cases known : series.position with
  | none => exact ⟨none, series, by simp only [Series.next, known], sound⟩
  | some position =>
      obtain ⟨outcome, course, yielded⟩ :=
        next_spec sound.represents known (sound.onWay position known)
      cases outcome with
      | none =>
          exact ⟨none, series.halted, yielded, sound.represents, sound.startOnWay, by simp [halted]⟩
      | some pair =>
          obtain ⟨instant, resume⟩ := pair
          refine ⟨some instant, series.resumed instant resume, yielded, sound.represents,
            sound.startOnWay, ?_⟩
          intro other same
          rw [← Option.some.inj same]
          exact course.on_way

theorem Sound.of_next {rest : Series} {outcome : Option Instant} (sound : series.Sound expression)
    (yielded : series.next = .ok (outcome, rest)) : rest.Sound expression := by
  obtain ⟨other, last, asked, lastSound⟩ := sound.next
  rw [yielded] at asked
  cases asked
  exact lastSound

theorem Sound.take (sound : series.Sound expression) (count : Nat) :
    ∃ instants rest, series.take count = .ok (instants, rest) ∧ rest.Sound expression := by
  induction count generalizing series with
  | zero => exact ⟨[], series, rfl, sound⟩
  | succ count induction =>
      obtain ⟨outcome, rest, yielded, restSound⟩ := sound.next
      cases outcome with
      | none => exact ⟨[], rest, take_ends yielded count, restSound⟩
      | some instant =>
          obtain ⟨instants, last, taken, lastSound⟩ := induction restSound
          exact ⟨instant :: instants, last, take_continues yielded taken, lastSound⟩

theorem Sound.rewind (sound : series.Sound expression) : series.rewind.Sound expression := by
  refine ⟨sound.represents, sound.startOnWay, ?_⟩
  intro position same
  rw [← Option.some.inj same]
  exact sound.startOnWay

theorem Sound.with_horizon (sound : series.Sound expression) (months : UInt32) :
    (series.withHorizon months).Sound expression :=
  ⟨sound.represents, sound.startOnWay, sound.onWay⟩

end Series

/-- Every accepted expression has a sound series after an instant whose local time is
representable. -/
theorem Expression.series_sound {text : String} {expression : Expression}
    (accepted : parse text = .ok expression) {zone : Zone} {origin : Instant}
    (inSpan : InSpan (zone.localCount origin)) :
    ∃ series, expression.series zone origin = .ok series ∧ series.Sound expression := by
  obtain ⟨schedule, represents, made⟩ := series_spec accepted inSpan
  refine ⟨_, made, represents, on_way_entry inSpan, ?_⟩
  intro position same
  rw [← Option.some.inj same]
  exact on_way_entry inSpan

namespace Session

def Sound (session : Session) (expression : Expression) : Prop :=
  ∀ series ∈ session.slots, series.Sound expression

variable {session : Session} {expression : Expression} {series : Series}

theorem sound_of_series (sound : series.Sound expression) :
    (ofSeries series).Sound expression := by
  intro other member
  rwa [List.mem_singleton.mp member]

theorem Sound.put (sound : session.Sound expression) (seriesSound : series.Sound expression) :
    (session.put series).Sound expression := by
  intro other member
  rcases List.mem_or_eq_of_mem_set member with kept | rfl
  · exact sound other kept
  · exact seriesSound

theorem Sound.run_on (sound : session.Sound expression) (seriesSound : series.Sound expression)
    (command : Command) :
    ∃ reply after, session.runOn series command = .ok (reply, after) ∧
      after.Sound expression := by
  cases command with
  | next =>
      obtain ⟨outcome, rest, yielded, restSound⟩ := seriesSound.next
      exact ⟨_, _, by rw [runOn, yielded]; rfl, sound.put restSound⟩
  | take count =>
      obtain ⟨instants, rest, taken, restSound⟩ := seriesSound.take count
      exact ⟨_, _, by rw [runOn, taken]; rfl, sound.put restSound⟩
  | rewind => exact ⟨_, _, rfl, sound.put seriesSound.rewind⟩
  | horizon months => exact ⟨_, _, rfl, sound.put (seriesSound.with_horizon months)⟩
  | clone =>
      refine ⟨_, _, rfl, ?_⟩
      intro other member
      rcases List.mem_append.mp member with kept | added
      · exact sound other kept
      · rw [List.mem_singleton.mp added]
        exact seriesSound
  | select slot =>
      by_cases inside : slot < session.slots.length
      · exact ⟨_, _, if_pos inside, sound⟩
      · exact ⟨_, _, if_neg inside, sound⟩

theorem Sound.run (sound : session.Sound expression) (command : Command) :
    ∃ reply after, session.run command = .ok (reply, after) ∧ after.Sound expression := by
  unfold Session.run
  split
  case h_1 series current =>
      exact sound.run_on (sound series (List.mem_of_getElem? current)) command
  case h_2 => exact ⟨_, _, rfl, sound⟩

theorem Sound.run_all (sound : session.Sound expression) (commands : List Command) :
    ∃ replies last, session.runAll commands = .ok (replies, last) ∧ last.Sound expression := by
  induction commands generalizing session with
  | nil => exact ⟨[], session, rfl, sound⟩
  | cons command later induction =>
      obtain ⟨reply, after, ran, afterSound⟩ := sound.run command
      obtain ⟨replies, last, ranAll, lastSound⟩ := induction afterSound
      refine ⟨reply :: replies, last, ?_, lastSound⟩
      simp only [runAll, ran, ranAll, Except.map]

end Session

/-- Any text is refused or read. What is read has a description, and a series after
every instant with a representable local time, which answers all commands. Every
search on the way has only safe moments in view, and each of their parts can be
counted one further within a byte. -/
theorem Expression.no_input_meets_a_fault (text : String) :
    (∃ error, parse text = .error error) ∨
      ∃ expression, parse text = .ok expression ∧
        (∃ sentence, expression.describe = .ok sentence) ∧
        ∀ (zone : Zone) (origin : Instant), InSpan (zone.localCount origin) →
          ∃ series, expression.series zone origin = .ok series ∧
            ∀ commands, ∃ replies last,
              (Session.ofSeries series).runAll commands = .ok (replies, last) ∧
                ∀ later ∈ last.slots, ∀ position seen, later.position = some position →
                  later.Views position seen → seen.Safe ∧ seen.FitsBytes := by
  cases accepted : parse text with
  | error error => exact Or.inl ⟨error, rfl⟩
  | ok expression =>
      obtain ⟨sentence, described, _⟩ := describe_spec (well_formed_of_parse accepted)
      refine Or.inr ⟨expression, rfl, ⟨sentence, described⟩, ?_⟩
      intro zone origin inSpan
      obtain ⟨series, made, sound⟩ := series_sound accepted inSpan
      refine ⟨series, made, ?_⟩
      intro commands
      have alone : (Session.ofSeries series).Sound expression := by
        intro other member
        rwa [List.mem_singleton.mp member]
      obtain ⟨replies, last, ran, lastSound⟩ := alone.run_all commands
      refine ⟨replies, last, ran, ?_⟩
      intro later member position seen known viewed
      have laterSound := lastSound later member
      have safe := viewed.safe laterSound.represents (laterSound.onWay position known)
      exact ⟨safe, Moment.fits_bytes_of_valid safe.1⟩

/-- A day that no year has is searched for from the last minute but one of the wall
clock, as many months ahead as can be asked for. -/
theorem Expression.no_input_meets_a_fault_beyond_last_year :
    let expression : Expression := ⟨none, .specific 0, .specific 0, .specific 30, .specific 2, .any⟩
    let origin : Instant := .ofUniversal ⟨⟨262142, 12, 31⟩, ⟨23, 58, 0⟩⟩ 0
    parse "0 0 30 2 *" = .ok expression ∧
      ∃ series, expression.series .utc origin = .ok series ∧
        ∃ replies last, (Session.ofSeries series).runAll
            [.next, .horizon 4294967295, .rewind, .next, .next, .rewind] = .ok (replies, last) ∧
          ∀ later ∈ last.slots, ∀ position seen, later.position = some position →
            later.Views position seen → seen.Safe ∧ seen.FitsBytes := by
  intro expression origin
  have accepted : parse "0 0 30 2 *" = .ok expression := by decide
  have inSpan : InSpan (Zone.utc.localCount origin) := by decide
  refine ⟨accepted, ?_⟩
  rcases no_input_meets_a_fault "0 0 30 2 *" with ⟨error, refused⟩ | ⟨read, known, _, answers⟩
  · rw [accepted] at refused
    cases refused
  · rw [accepted] at known
    obtain rfl := Except.ok.inj known
    obtain ⟨series, made, runs⟩ := answers .utc origin inSpan
    exact ⟨series, made, runs _⟩

end CronSchedule
