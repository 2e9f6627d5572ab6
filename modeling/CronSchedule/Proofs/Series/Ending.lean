import CronSchedule.Proofs.Schedule.Cycle
import CronSchedule.Proofs.Series.Sound

/-!
# Searches and advances end

A search takes one look after the other, and an advance one search after the other.
Every look that fails goes on strictly later, in another minute, and a match that stands
for no instant after the floor is left behind for good. So both end: the horizon bounds
the number of looks, and the seconds left of the representable years bound the number of
matches. What a zone makes of the matches does not matter for this.
-/

namespace CronSchedule

set_option autoImplicit false

namespace Moment

/-- The minutes of the longest months. -/
def minutesPerMonth : Nat := 31 * 24 * 60

/-- Minutes counted as if all months were as long as the longest. -/
def minuteRank (moment : Moment) : Int :=
  ((moment.monthIndex * 31 + (moment.date.day - 1)) * 24 + moment.clock.hour) * 60 +
    moment.clock.minute

theorem minute_rank_bounds {moment : Moment} (valid : moment.Valid) :
    moment.monthIndex * minutesPerMonth ≤ moment.minuteRank ∧
      moment.minuteRank < (moment.monthIndex + 1) * minutesPerMonth := by
  obtain ⟨dateValid, hour, minute, _⟩ := valid
  have day := Nat.le_trans dateValid.2 (month_length_le moment.date.year moment.date.month)
  have firstDay := dateValid.1
  simp only [minuteRank, minutesPerMonth]
  omega

end Moment

namespace Schedule

/-- The looks of a search within a limit, with the moments from which it went on after
those that failed, and what the last look made of it. -/
inductive Looks (schedule : Schedule) (limit : Int) :
    Moment → List Moment → Except Fault (Option Moment) → Prop
  | beyond {moment : Moment} (outOfReach : limit < moment.monthIndex) :
      Looks schedule limit moment [] (.ok none)
  | hit {moment found : Moment} (inReach : moment.monthIndex ≤ limit)
      (looked : schedule.probe moment = .ok (.hit found)) :
      Looks schedule limit moment [] (.ok (some found))
  | refused {moment : Moment} {fault : Fault} (inReach : moment.monthIndex ≤ limit)
      (looked : schedule.probe moment = .error fault) :
      Looks schedule limit moment [] (.error fault)
  | miss {moment resume : Moment} {resumes : List Moment} {outcome : Except Fault (Option Moment)}
      (inReach : moment.monthIndex ≤ limit)
      (looked : schedule.probe moment = .ok (.miss resume))
      (later : Looks schedule limit resume resumes outcome) :
      Looks schedule limit moment (resume :: resumes) outcome

/-- A search from the start ends with the outcome: each of its looks is strictly later
than the one before, and their number is bounded by the months of the horizon. -/
def SearchEnds (schedule : Schedule) (start : Moment) (horizon : UInt32)
    (outcome : Except Fault (Option Moment)) : Prop :=
  ∃ resumes, schedule.Looks (start.monthIndex + horizon.toNat) start resumes outcome ∧
    (start :: resumes).Pairwise (· < ·) ∧
    resumes.length < (horizon.toNat + 2) * Moment.minutesPerMonth

variable {schedule : Schedule} {expression : Expression} {limit : Int} {moment resume : Moment}
  {resumes : List Moment} {outcome : Except Fault (Option Moment)}

/-- A look that fails goes on from a moment of the calendar, in whatever year it is
taken. Years at the ends of the span are no exception, since the look fails in the same
way in the years from 2000 on. -/
theorem valid_of_miss (represents : schedule.Represents expression) (valid : moment.Valid)
    (looked : schedule.probe moment = .ok (.miss resume)) : resume.Valid := by
  obtain ⟨cycles, laterValid, lower, far⟩ := Moment.exists_roomy_cycle valid
  have months := Moment.month_index_bounds laterValid
  have upper : (moment.cyclesLater cycles).date.year < latestYear := by omega
  have room : (moment.cyclesLater cycles).date.HasRoom 0 := by
    simp only [Moment.monthIndex] at months far
    exact ⟨lower, by omega⟩
  obtain ⟨probe, answered, answers⟩ := probe_spec represents laterValid lower upper
  rw [probe_later room looked] at answered
  rw [← Except.ok.inj answered] at answers
  exact (Moment.valid_later resume cycles).mp answers.1

theorem minute_rank_lt_of_miss (valid : moment.Valid) (resumeValid : resume.Valid)
    (looked : schedule.probe moment = .ok (.miss resume)) :
    moment.minuteRank < resume.minuteRank := by
  obtain ⟨_, advances⟩ := follows_probe looked
  have month := Date.valid_month valid.1
  have resumeMonth := Date.valid_month resumeValid.1
  have day := Nat.le_trans valid.1.2 (month_length_le _ _)
  have resumeDay := resumeValid.1.1
  obtain ⟨_, hour, minute, _⟩ := valid
  simp only [Advances, Date.monthRank] at advances
  simp only [Moment.minuteRank, Moment.monthIndex, Date.monthIndex]
  omega

theorem exists_looks (schedule : Schedule) (limit : Int) (moment : Moment) :
    ∃ resumes, schedule.Looks limit moment resumes (schedule.searchUpTo limit moment) := by
  fun_induction schedule.searchUpTo limit moment with
  | case1 moment inReach fault looked => exact ⟨[], Looks.refused inReach looked⟩
  | case2 moment inReach found looked => exact ⟨[], Looks.hit inReach looked⟩
  | case3 moment inReach resume looked _ induction =>
      obtain ⟨resumes, later⟩ := induction
      exact ⟨resume :: resumes, Looks.miss inReach looked later⟩
  | case4 moment beyond => exact ⟨[], Looks.beyond (Int.not_le.mp beyond)⟩

theorem Looks.ascending (looks : schedule.Looks limit moment resumes outcome) :
    (moment :: resumes).Pairwise (· < ·) := by
  induction looks with
  | beyond => exact List.pairwise_singleton _ _
  | hit => exact List.pairwise_singleton _ _
  | refused => exact List.pairwise_singleton _ _
  | @miss moment resume resumes _ _ looked _ induction =>
      have forward := (follows_probe looked).1
      have onward := (List.pairwise_cons.mp induction).1
      refine List.pairwise_cons.mpr ⟨?_, induction⟩
      intro other member
      rcases List.mem_cons.mp member with rfl | later
      · exact forward
      · exact Moment.lt_trans forward (onward other later)

/-- Every failed look leaves a minute behind for good. -/
theorem Looks.length_lt (represents : schedule.Represents expression)
    (looks : schedule.Looks limit moment resumes outcome) (valid : moment.Valid)
    (near : moment.monthIndex ≤ limit + 1) :
    moment.minuteRank + resumes.length < (limit + 2) * Moment.minutesPerMonth := by
  induction looks with
  | @miss moment resume _ _ inReach looked _ induction =>
      have resumeValid := valid_of_miss represents valid looked
      have forward := minute_rank_lt_of_miss valid resumeValid looked
      have month := (month_index_of_miss valid resumeValid looked).2
      have rest := induction resumeValid (by omega)
      rw [List.length_cons]
      omega
  | @beyond moment | @hit moment | @refused moment =>
      have bound := (Moment.minute_rank_bounds valid).2
      simp only [Moment.minutesPerMonth, List.length_nil] at bound ⊢
      omega

theorem search_ends (represents : schedule.Represents expression) {start : Moment}
    (valid : start.Valid) (horizon : UInt32) :
    schedule.SearchEnds start horizon (schedule.search start horizon) := by
  obtain ⟨resumes, looks⟩ := exists_looks schedule (start.monthIndex + horizon.toNat) start
  have bound := looks.length_lt represents valid (by omega)
  have first := (Moment.minute_rank_bounds valid).1
  refine ⟨resumes, looks, looks.ascending, ?_⟩
  simp only [Moment.minutesPerMonth] at bound first ⊢
  omega

end Schedule

namespace Series

/-- The rounds of an advance, with the matches that it passed over and where it went on
after each, and what it came to. Which instant a match stands for, if any, is told by
`resolve`. -/
inductive Rounds (schedule : Schedule) (horizon : UInt32) (resolve : Moment → Option Instant) :
    Moment → List (Moment × Moment) → Option (Instant × Moment) → Prop
  | nothing {position : Moment} (searched : schedule.search position horizon = .ok none) :
      Rounds schedule horizon resolve position [] none
  | past {position found : Moment}
      (searched : schedule.search position horizon = .ok (some found))
      (beyond : Moment.lastYear < found.date.year) :
      Rounds schedule horizon resolve position [] none
  | yields {position found resume : Moment} {instant : Instant}
      (searched : schedule.search position horizon = .ok (some found))
      (representable : found.Representable) (stepped : schedule.step found = .ok resume)
      (resolved : resolve found = some instant) :
      Rounds schedule horizon resolve position [] (some (instant, resume))
  | passes {position found resume : Moment} {passed : List (Moment × Moment)}
      {outcome : Option (Instant × Moment)}
      (searched : schedule.search position horizon = .ok (some found))
      (representable : found.Representable) (stepped : schedule.step found = .ok resume)
      (unresolved : resolve found = none)
      (later : Rounds schedule horizon resolve resume passed outcome) :
      Rounds schedule horizon resolve position ((found, resume) :: passed) outcome

/-- Each match lies at the position of its round or later, and the position of the next
round is strictly later than the match. -/
def PassesOnward : Moment → List (Moment × Moment) → Prop
  | _, [] => True
  | position, (found, resume) :: later =>
      position ≤ found ∧ found < resume ∧ PassesOnward resume later

/-- An advance from the position ends with the outcome: each of its rounds begins after
the match passed over before it, and there are at most as many as seconds are left of the
representable years. -/
def AdvanceEnds (schedule : Schedule) (horizon : UInt32) (resolve : Moment → Option Instant)
    (position : Moment) (outcome : Option (Instant × Moment)) : Prop :=
  ∃ passed, Rounds schedule horizon resolve position passed outcome ∧
    PassesOnward position passed ∧
    position.secondCount + passed.length ≤ daysBeforeYear (Moment.lastYear + 1) * 86400

variable {schedule : Schedule} {expression : Expression} {horizon : UInt32}
  {resolve : Moment → Option Instant} {position found : Moment} {passed : List (Moment × Moment)}
  {outcome : Option (Instant × Moment)}

theorem last_year_lt_of_search (onWay : position.OnWay)
    (represents : schedule.Represents expression)
    (searched : schedule.search position horizon = .ok (some found))
    (unrepresentable : ¬found.Representable) : Moment.lastYear < found.date.year := by
  obtain ⟨result, hit, finds⟩ := finds_of_search represents onWay searched
  rw [← Except.ok.inj hit] at finds
  obtain ⟨valid, _, reached, _⟩ := finds
  have first := (Moment.years_of_on_way onWay).1
  have years := Moment.year_le_of_le reached
  by_contra notPast
  exact unrepresentable ⟨valid, Int.le_trans first years, Int.not_lt.mp notPast⟩

/-- Whatever instants the matches stand for, the rounds end. -/
theorem exists_rounds (represents : schedule.Represents expression) (horizon : UInt32)
    (resolve : Moment → Option Instant) (onWay : position.OnWay) :
    ∃ passed outcome, Rounds schedule horizon resolve position passed outcome := by
  -- by what is left of the representable years
  induction remaining : left position using Nat.strongRecOn generalizing position with
  | ind _ induction =>
      obtain ⟨result, searched, _⟩ := finds_of_search represents onWay rfl
      cases result with
      | none => exact ⟨[], none, Rounds.nothing searched⟩
      | some found =>
          by_cases representable : found.Representable
          · have stepped := Schedule.step_spec represents representable
            cases resolved : resolve found with
            | some instant => exact ⟨[], _, Rounds.yields searched representable stepped resolved⟩
            | none =>
                have less := left_of_step searched representable stepped
                rw [remaining] at less
                obtain ⟨passed, outcome, later⟩ :=
                  induction _ less (expression.on_way_onward representable) rfl
                exact ⟨_, outcome, Rounds.passes searched representable stepped resolved later⟩
          · have beyond := last_year_lt_of_search onWay represents searched representable
            exact ⟨[], none, Rounds.past searched beyond⟩

theorem Rounds.passes_onward (rounds : Rounds schedule horizon resolve position passed outcome) :
    PassesOnward position passed := by
  induction rounds with
  | nothing => trivial
  | past => trivial
  | yields => trivial
  | passes searched _ stepped _ _ induction =>
      exact ⟨Schedule.search_ge searched, Schedule.lt_step stepped, induction⟩

/-- Every match passed over leaves a second behind for good. -/
theorem Rounds.length_le (represents : schedule.Represents expression)
    (rounds : Rounds schedule horizon resolve position passed outcome) (onWay : position.OnWay) :
    position.secondCount + passed.length ≤ daysBeforeYear (Moment.lastYear + 1) * 86400 := by
  induction rounds with
  | @passes position found resume _ _ searched representable stepped _ _ induction =>
      have known := Schedule.step_spec represents representable
      rw [stepped] at known
      have resumeOnWay : resume.OnWay :=
        Except.ok.inj known ▸ expression.on_way_onward representable
      have reached := (Moment.le_iff_second_count_le onWay.1 representable.1).mp
        (Schedule.search_ge searched)
      have left := (Moment.lt_iff_second_count_lt representable.1 resumeOnWay.1).mp
        (Schedule.lt_step stepped)
      have rest := induction resumeOnWay
      rw [List.length_cons]
      omega
  | nothing | past | yields =>
      rw [List.length_nil]
      exact Int.le_trans (Int.le_of_eq (Int.add_zero _)) onWay.2.2

theorem advance_ends (represents : schedule.Represents expression) (horizon : UInt32)
    (resolve : Moment → Option Instant) (onWay : position.OnWay) :
    ∃ outcome, AdvanceEnds schedule horizon resolve position outcome := by
  obtain ⟨passed, outcome, rounds⟩ := exists_rounds represents horizon resolve onWay
  exact ⟨outcome, passed, rounds, rounds.passes_onward, rounds.length_le represents onWay⟩

/-- An advance comes to what its rounds come to. -/
theorem advance_of_rounds {zone : Zone} {floor : Instant}
    (rounds : Rounds schedule horizon (zone.resolve floor) position passed outcome) :
    advance schedule zone horizon floor position = .ok outcome := by
  induction rounds with
  | nothing searched => rw [advance_eq, searched]
  | past searched beyond =>
      have unrepresentable := fun representable : Moment.Representable _ =>
        Int.not_lt.mpr representable.2.2 beyond
      rw [advance_eq, searched]
      exact if_neg unrepresentable
  | yields searched representable stepped resolved =>
      exact advance_yields searched representable stepped resolved
  | passes searched representable stepped unresolved _ induction =>
      rw [advance_skips searched representable stepped unresolved]
      exact induction

theorem Sound.next_ends {series : Series} (sound : series.Sound expression)
    (known : series.position = some position) :
    ∃ outcome, AdvanceEnds series.schedule series.horizon (series.zone.resolve series.floor)
      position outcome ∧ series.next = .ok (series.after outcome) := by
  obtain ⟨outcome, passed, rounds, ends⟩ := advance_ends sound.represents series.horizon
    (series.zone.resolve series.floor) (sound.onWay position known)
  exact ⟨outcome, ⟨passed, rounds, ends⟩, next_of_advance known (advance_of_rounds rounds)⟩

end Series

namespace Expression

/-- Every search from a moment of the calendar ends, each failed look on the way going
strictly forward, and meets no fault while it has room in the span of years. So does
every advance along the representable wall clock, whatever instants the matches stand
for, and with it whatever a series is asked for next. -/
theorem searches_and_advances_end {text : String} {expression : Expression}
    (accepted : parse text = .ok expression) :
    ∃ schedule, Schedule.ofExpression expression = .ok schedule ∧
      (∀ moment resume : Moment, moment.Valid → schedule.probe moment = .ok (.miss resume) →
        resume.Valid ∧ moment < resume) ∧
      (∀ (start : Moment) (horizon : UInt32), start.Valid →
        schedule.SearchEnds start horizon (schedule.search start horizon) ∧
          (start.date.HasRoom horizon.toNat →
            ∃ result, schedule.search start horizon = .ok result)) ∧
      (∀ (horizon : UInt32) (resolve : Moment → Option Instant) (position : Moment),
        position.OnWay →
        ∃ outcome, Series.AdvanceEnds schedule horizon resolve position outcome) ∧
      ∀ (zone : Zone) (origin : Instant), InSpan (zone.localCount origin) →
        ∃ series, expression.series zone origin = .ok series ∧
          ∀ commands, ∃ replies last,
            (Session.ofSeries series).runAll commands = .ok (replies, last) ∧
              ∀ later ∈ last.slots, ∀ position, later.position = some position →
                ∃ outcome, Series.AdvanceEnds later.schedule later.horizon
                    (later.zone.resolve later.floor) position outcome ∧
                  later.next = .ok (later.after outcome) := by
  obtain ⟨schedule, made, represents⟩ :=
    Schedule.of_expression_spec (well_formed_of_parse accepted)
  refine ⟨schedule, made, ?_, ?_, ?_, ?_⟩
  · intro moment resume valid looked
    exact ⟨Schedule.valid_of_miss represents valid looked, (Schedule.follows_probe looked).1⟩
  · intro start horizon valid
    exact ⟨Schedule.search_ends represents valid horizon,
      Schedule.search_answers represents valid⟩
  · intro horizon resolve position onWay
    exact Series.advance_ends represents horizon resolve onWay
  · intro zone origin inSpan
    obtain ⟨series, made, sound⟩ := series_sound accepted inSpan
    refine ⟨series, made, ?_⟩
    intro commands
    obtain ⟨replies, last, ran, lastSound⟩ := (Session.sound_of_series sound).run_all commands
    refine ⟨replies, last, ran, ?_⟩
    intro later member position known
    exact (lastSound later member).next_ends known

/-- At one in the afternoon of the last day clocks are set forward by half a day, so the
last minute of that day is never shown. The series leaves it behind, finds the last
minute of the next day, which is past the representable years, and ends. -/
theorem searches_and_advances_end_without_instants :
    let expression : Expression := ⟨none, .specific 59, .specific 23, .any, .any, .any⟩
    let lastDay : Date := ⟨262142, 12, 31⟩
    let newYear : Moment := ⟨⟨262143, 1, 1⟩, Clock.midnight⟩
    let origin : Instant := .ofUniversal ⟨lastDay, ⟨12, 0, 0⟩⟩ 0
    let zone : Zone := ⟨0, [(.ofUniversal ⟨lastDay, ⟨13, 0, 0⟩⟩ 0, 43200)]⟩
    let entry : Moment := ⟨lastDay, ⟨12, 1, 0⟩⟩
    let late : Moment := ⟨lastDay, ⟨23, 59, 30⟩⟩
    parse "59 23 * * *" = .ok expression ∧ late.Valid ∧ late.date.HasRoom 4294967295 ∧
      entry.OnWay ∧ InSpan (zone.localCount origin) ∧
      ∃ schedule, Schedule.ofExpression expression = .ok schedule ∧
        schedule.probe late = .ok (.miss newYear) ∧ newYear.Valid ∧ late < newYear ∧
        schedule.SearchEnds late 4294967295 (schedule.search late 4294967295) ∧
        (∃ result, schedule.search late 4294967295 = .ok result) ∧
        (∃ outcome, Series.AdvanceEnds schedule 60 (fun _ => none) entry outcome) ∧
        ∃ series, expression.series zone origin = .ok series ∧ series.position = some entry ∧
          Series.AdvanceEnds series.schedule series.horizon (series.zone.resolve series.floor)
            entry none ∧
          series.next = .ok (none, series.halted) := by
  intro expression lastDay newYear origin zone entry late
  have accepted : parse "59 23 * * *" = .ok expression := by decide
  have valid : late.Valid := by decide
  have room : late.date.HasRoom 4294967295 := by decide
  have onWay : entry.OnWay := ⟨by decide, by decide, by decide⟩
  have inSpan : InSpan (zone.localCount origin) := by decide
  let schedule : Schedule := ⟨false, .singleton 0, .singleton 59, .singleton 23, none,
    .stepping 1 12 1, none⟩
  let series : Series :=
    ⟨schedule, zone, Series.defaultHorizon, entry, origin, some entry, origin⟩
  have made : Schedule.ofExpression expression = .ok schedule := by decide
  have seriesMade : expression.series zone origin = .ok series :=
    series_of_step made inSpan (by decide)
  have missed : schedule.probe late = .ok (.miss newYear) := by decide
  have ended : series.next = .ok (none, series.halted) := by
    let found : Moment := ⟨lastDay, ⟨23, 59, 0⟩⟩
    let past : Moment := ⟨⟨262143, 1, 1⟩, ⟨23, 59, 0⟩⟩
    have first : schedule.search entry Series.defaultHorizon = .ok (some found) :=
      Schedule.search_up_to_hit (by decide) (by decide)
    have second : schedule.search newYear Series.defaultHorizon = .ok (some past) :=
      Schedule.search_up_to_hit (by decide) (by decide)
    have rounds : Series.Rounds schedule Series.defaultHorizon (zone.resolve origin) entry
        [(found, newYear)] none :=
      Series.Rounds.passes first (by decide) (by decide) (by decide)
        (Series.Rounds.past second (by decide))
    have advanced : Series.advance series.schedule series.zone series.horizon series.floor entry =
        .ok none := Series.advance_of_rounds rounds
    exact Series.next_of_advance rfl advanced
  obtain ⟨other, otherMade, forward, searches, advances, asked⟩ :=
    searches_and_advances_end accepted
  rw [made] at otherMade
  obtain rfl : schedule = other := Except.ok.inj otherMade
  obtain ⟨newYearValid, later⟩ := forward late newYear valid missed
  obtain ⟨searchEnds, answered⟩ := searches late 4294967295 valid
  obtain ⟨begun, sameMade, commands⟩ := asked zone origin inSpan
  rw [seriesMade] at sameMade
  obtain rfl : series = begun := Except.ok.inj sameMade
  -- no command has been given yet, so the session still holds the fresh series
  obtain ⟨_, last, ran, ends⟩ := commands []
  cases ran
  obtain ⟨outcome, advanceEnds, next⟩ := ends series (List.mem_singleton.mpr rfl) entry rfl
  have nothing : outcome = none := by
    cases outcome with
    | none => rfl
    | some pair =>
        rw [ended] at next
        cases next
  rw [nothing] at advanceEnds
  exact ⟨accepted, valid, room, onWay, inSpan, schedule, made, missed, newYearValid, later,
    searchEnds, answered room, advances 60 (fun _ => none) entry onWay, series, seriesMade, rfl,
    advanceEnds, ended⟩

end Expression

end CronSchedule
