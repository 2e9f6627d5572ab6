import CronSchedule.Proofs.Series.Transcript
import CronSchedule.Proofs.Series.Walks

/-!
# Changing the horizon on the way

A longer horizon finds what a shorter one finds. A series whose horizon is changed on the
way is therefore kept in step, from one occurrence to the next, with a series of one
horizon that is as long as any of those in force when it was asked. It may end earlier than
that series, and yields nothing else.
-/

namespace CronSchedule

set_option autoImplicit false

namespace Command

/-- The command asks for the next occurrence or sets the horizon. -/
def Onward : Command → Prop
  | .next => True
  | .horizon _ => True
  | _ => False

theorem Onward.acts {command : Command} (onward : command.Onward) : command.Acts := by
  cases command with
  | next => trivial
  | horizon months => trivial
  | _ => exact onward.elim

/-- The horizons in force when the next occurrence is asked for. -/
def horizonsAsked (current : UInt32) : List Command → List UInt32
  | [] => []
  | .next :: later => current :: horizonsAsked current later
  | command :: later => horizonsAsked (command.setting current) later

end Command

/-- The occurrence that is brought in answer to a request for the next one. -/
def Reply.brought : Reply → Option Instant
  | .occurrence outcome => outcome
  | _ => none

namespace Expression

variable {expression : Expression} {zone : Zone} {floor : Instant} {position : Moment}

/-- What lies within a horizon also lies within every longer one. -/
theorem Course.further {horizon most : Nat} {found : Instant × Moment}
    (course : expression.Course zone horizon floor position (some found))
    (ordered : horizon ≤ most) : expression.Course zone most floor position (some found) := by
  generalize same : some found = outcome at course
  induction course with
  | ends => cases same
  | yields first inReach emitted =>
      cases same
      exact Course.yields first (by omega) emitted
  | skips first inReach passed _ induction =>
      exact Course.skips first (by omega) passed (induction same)

end Expression

namespace Series

variable {expression : Expression} {series rest : Series} {instant : Instant} {most : UInt32}

/-- A longer horizon does not change what is yielded within a shorter one. -/
theorem next_further (sound : series.Sound expression) (ordered : series.horizon ≤ most)
    (yielded : series.next = .ok (some instant, rest)) :
    (series.withHorizon most).next = .ok (some instant, rest.withHorizon most) := by
  cases known : series.position with
  | none =>
      rw [next_of_ended known] at yielded
      cases yielded
  | some position =>
      have onWay := sound.onWay position known
      rcases next_spec sound.represents known onWay with ⟨outcome, course, asked⟩
      rw [yielded] at asked
      cases outcome with
      | none => cases asked
      | some found =>
          cases asked
          have further := course.further (UInt32.le_iff_toNat_le.mp ordered)
          have long := (sound.with_horizon most).represents
          rcases next_spec long known onWay with ⟨other, otherCourse, otherAsked⟩
          rw [← further.unique otherCourse] at otherAsked
          exact otherAsked

/-- The series yields these occurrences before all others. -/
def OpensWith (series : Series) (instants : List Instant) : Prop :=
  ∃ rest, series.take instants.length = .ok (instants, rest)

theorem opens_with_nil (series : Series) : series.OpensWith [] := ⟨series, rfl⟩

theorem OpensWith.cons {instants : List Instant} (opens : rest.OpensWith instants)
    (yielded : series.next = .ok (some instant, rest)) :
    series.OpensWith (instant :: instants) := by
  rcases opens with ⟨last, taken⟩
  exact ⟨last, take_continues yielded taken⟩

end Series

namespace Session

variable {expression : Expression} {series : Series} {last : Session} {transcript : Transcript}
  {most : UInt32}

theorem brought_of_ended (onward : ∀ entry ∈ transcript, entry.1.Onward)
    (ran : (ofSeries series).Ran transcript last) (ended : series.position = none) :
    (transcript.map Prod.snd).filterMap Reply.brought = [] := by
  induction transcript generalizing series with
  | nil => rfl
  | cons entry later induction =>
      rcases List.forall_mem_cons.mp onward with ⟨entryOnward, laterOnward⟩
      rcases (ran_alone_cons_iff entryOnward.acts).mp ran with ⟨middle, answers, continued⟩
      cases entry with
      | mk command reply =>
          cases answers with
          | next yielded =>
              rw [Series.next_of_ended ended] at yielded
              cases yielded
              exact induction laterOnward continued ended
          | take => exact entryOnward.elim
          | rewind => exact entryOnward.elim
          | horizon => exact induction laterOnward continued ended

/-- What a run brings is what a series brings first whose horizon is never exceeded in the
run. The two series differ in their horizons only, until the one in the run ends. -/
theorem opens_with_of_ran (sound : series.Sound expression)
    (onward : ∀ entry ∈ transcript, entry.1.Onward)
    (ran : (ofSeries series).Ran transcript last)
    (bounded : ∀ months ∈ Command.horizonsAsked series.horizon (transcript.map Prod.fst),
      months ≤ most) :
    (series.withHorizon most).OpensWith ((transcript.map Prod.snd).filterMap Reply.brought) := by
  induction transcript generalizing series with
  | nil => exact Series.opens_with_nil _
  | cons entry later induction =>
      rcases List.forall_mem_cons.mp onward with ⟨entryOnward, laterOnward⟩
      rcases (ran_alone_cons_iff entryOnward.acts).mp ran with ⟨middle, answers, continued⟩
      cases entry with
      | mk command reply =>
          cases answers with
          | @next outcome _ yielded =>
              rcases List.forall_mem_cons.mp bounded with ⟨ordered, laterBounded⟩
              cases outcome with
              | none =>
                  have ended := Series.ended_of_next yielded
                  have nothing := brought_of_ended laterOnward continued ended
                  rw [List.map_cons, List.filterMap_cons_none rfl, nothing]
                  exact Series.opens_with_nil _
              | some instant =>
                  have kept := congrArg Series.horizon (Series.rewind_of_next yielded)
                  rw [← show middle.horizon = series.horizon from kept] at laterBounded
                  have further := Series.next_further sound ordered yielded
                  have opens := induction (sound.of_next yielded) laterOnward continued laterBounded
                  exact opens.cons further
          | take => exact entryOnward.elim
          | rewind => exact entryOnward.elim
          | horizon months =>
              have opens := induction (sound.with_horizon months) laterOnward continued bounded
              exact opens

end Session

namespace Expression

variable {text : String} {expression : Expression} {zone : Zone} {origin : Instant}

/-- Whenever the horizon of a series is changed on the way, the series yields what a series
of one horizon opens with that is as long as any of those in force when it was asked. -/
theorem changing_horizon_only_ends_earlier (accepted : parse text = .ok expression)
    (inSpan : InSpan (zone.localCount origin)) {commands : List Command}
    (onward : ∀ command ∈ commands, command.Onward) {most : UInt32}
    (bounded : ∀ months ∈ Command.horizonsAsked Series.defaultHorizon commands, months ≤ most) :
    ∃ series replies last, expression.series zone origin = .ok series ∧
      (Session.ofSeries series).runAll commands = .ok (replies, last) ∧
      replies.length = commands.length ∧
      (series.withHorizon most).OpensWith (replies.filterMap Reply.brought) := by
  rcases series_sound accepted inSpan with ⟨series, made, sound⟩
  rcases begun_of_series made with ⟨_, _, usual⟩
  rcases Session.exists_ran sound commands with ⟨replies, last, ranAll, counted, ran⟩
  have asked : (commands.zip replies).map Prod.fst = commands :=
    List.map_fst_zip (Nat.le_of_eq counted.symm)
  have replied : (commands.zip replies).map Prod.snd = replies :=
    List.map_snd_zip (Nat.le_of_eq counted)
  have opens : (series.withHorizon most).OpensWith
      (((commands.zip replies).map Prod.snd).filterMap Reply.brought) := by
    apply Session.opens_with_of_ran sound _ ran
    · rw [asked, usual]
      exact bounded
    · intro entry member
      exact onward entry.1 (List.of_mem_zip member).1
  rw [replied] at opens
  exact ⟨series, replies, last, made, ranAll, counted, opens⟩

/-- The first of each month. The series ends when it may look no month ahead, and no longer
horizon brings it back. The longest does not count, as nothing is asked for within it. -/
theorem changing_horizon_only_ends_earlier_for_good :
    let expression : Expression :=
      ⟨none, .specific 0, .specific 0, .specific 1, .any, .any⟩
    let origin : Instant := .ofUniversal ⟨⟨2024, 1, 15⟩, ⟨0, 0, 0⟩⟩ 0
    let february : Instant := .ofUniversal ⟨⟨2024, 2, 1⟩, ⟨0, 0, 0⟩⟩ 0
    let commands : List Command :=
      [.next, .horizon 0, .next, .horizon 4294967295, .horizon 24, .next]
    let replies : List Reply := [.occurrence (some february), .done, .occurrence none, .done,
      .done, .occurrence none]
    parse "0 0 1 * *" = .ok expression ∧ InSpan (Zone.utc.localCount origin) ∧
      (∀ command ∈ commands, command.Onward) ∧
      (∀ months ∈ Command.horizonsAsked Series.defaultHorizon commands, months ≤ 60) ∧
      ∃ series last, expression.series .utc origin = .ok series ∧
        (Session.ofSeries series).runAll commands = .ok (replies, last) ∧
        (series.withHorizon 60).OpensWith [february] := by
  intro expression origin february commands replies
  have accepted : parse "0 0 1 * *" = .ok expression := by decide
  have inSpan : InSpan (Zone.utc.localCount origin) := by decide
  have onward : ∀ command ∈ commands, command.Onward := by simp [commands, Command.Onward]
  have asked : Command.horizonsAsked Series.defaultHorizon commands = [60, 0, 24] := rfl
  have bounded : ∀ months ∈ Command.horizonsAsked Series.defaultHorizon commands, months ≤ 60 := by
    rw [asked]
    simp only [List.forall_mem_cons]
    exact ⟨by decide, by decide, by decide, by simp⟩
  let schedule : Schedule := ⟨false, .singleton 0, .singleton 0, .singleton 0,
    some (.singleton 1), .stepping 1 12 1, none⟩
  let start : Moment := ⟨⟨2024, 1, 15⟩, ⟨0, 1, 0⟩⟩
  let found : Moment := ⟨⟨2024, 2, 1⟩, ⟨0, 0, 0⟩⟩
  let resume : Moment := ⟨⟨2024, 2, 1⟩, ⟨0, 1, 0⟩⟩
  let fresh : Series := ⟨schedule, .utc, Series.defaultHorizon, start, origin, some start, origin⟩
  have made : expression.series .utc origin = .ok fresh :=
    series_of_step (by decide) (by decide) (by decide)
  have hit : schedule.search start Series.defaultHorizon = .ok (some found) := by
    have nextMonth : schedule.probe start = .ok (.miss found) := by decide
    rw [Schedule.search, Schedule.search_up_to_miss (by decide) nextMonth]
    exact Schedule.search_up_to_hit (by decide) (by decide)
  have nothing : schedule.search resume 0 = .ok none := by
    let resumes : List Moment :=
      [⟨⟨2024, 2, 1⟩, ⟨1, 0, 0⟩⟩, ⟨⟨2024, 2, 2⟩, ⟨0, 0, 0⟩⟩, ⟨⟨2024, 3, 1⟩, ⟨0, 0, 0⟩⟩]
    rw [Schedule.search, Schedule.search_up_to_misses resumes (by decide)]
    exact Schedule.search_up_to_beyond (by decide)
  let short : Series := (fresh.resumed february resume).withHorizon 0
  have yielded : fresh.next = .ok (some february, fresh.resumed february resume) :=
    Series.next_yields rfl hit (by decide) rfl (by decide)
  have ended : short.next = .ok (none, short.halted) := Series.next_ends rfl nothing
  have ran : (Session.ofSeries fresh).Ran (commands.zip replies)
      (Session.ofSeries (short.halted.withHorizon 24)) := by
    apply (Session.ran_alone_cons_iff (by trivial)).mpr ⟨_, .next yielded, ?_⟩
    apply (Session.ran_alone_cons_iff (by trivial)).mpr ⟨_, .horizon 0, ?_⟩
    apply (Session.ran_alone_cons_iff (by trivial)).mpr ⟨_, .next ended, ?_⟩
    apply (Session.ran_alone_cons_iff (by trivial)).mpr ⟨_, .horizon 4294967295, ?_⟩
    apply (Session.ran_alone_cons_iff (by trivial)).mpr ⟨_, .horizon 24, ?_⟩
    apply (Session.ran_alone_cons_iff (by trivial)).mpr ⟨_, .next (Series.next_of_ended rfl), ?_⟩
    exact Session.ran_nil_iff.mpr rfl
  have ranAll : (Session.ofSeries fresh).runAll commands = .ok (replies, _) := ran
  rcases changing_horizon_only_ends_earlier accepted inSpan onward bounded with
    ⟨_, _, last, sameMade, sameRan, _, opens⟩
  rw [made] at sameMade
  cases sameMade
  rw [ranAll] at sameRan
  cases sameRan
  exact ⟨accepted, inSpan, onward, bounded, fresh, _, made, ranAll, opens⟩

end Expression

end CronSchedule
