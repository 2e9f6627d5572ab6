import CronSchedule.Proofs.Series.Sound

/-!
# What a series is asked and what it replies

The commands that act on a series lead from one state of it to another, whatever else the
session holds. They keep its beginning, so that a rewind always leads back to it with the
horizon that was set last, and they leave an ended series ended until it is rewound. What
was asked and replied in a run is its transcript.
-/

namespace CronSchedule

set_option autoImplicit false

namespace Command

/-- Clones and selections act on the session, all other commands on its current series. -/
def Acts : Command → Prop
  | .clone => False
  | .select _ => False
  | _ => True

theorem clone_or_select_of_not_acts {command : Command} (notActs : ¬command.Acts) :
    command = .clone ∨ ∃ slot, command = .select slot := by
  cases command with
  | clone => exact Or.inl rfl
  | select slot => exact Or.inr ⟨slot, rfl⟩
  | next => exact absurd trivial notActs
  | take count => exact absurd trivial notActs
  | rewind => exact absurd trivial notActs
  | horizon months => exact absurd trivial notActs

/-- The horizon in force after the command. -/
def setting (current : UInt32) : Command → UInt32
  | .horizon months => months
  | _ => current

/-- The reply shows that the series has come to its end: the next occurrence was missing. -/
def Ends : Command → Reply → Prop
  | .next, .occurrence outcome => outcome = none
  | .take count, .occurrences instants => instants.length < count
  | _, _ => False

/-- The reply brings no occurrence. -/
def BringsNothing : Command → Reply → Prop
  | .next, reply => reply = .occurrence none
  | .take _, reply => reply = .occurrences []
  | _, _ => True

end Command

namespace Series

/-- The series replies to the command and is left in another state. -/
inductive Answers (series : Series) : Command → Reply → Series → Prop
  | next {outcome : Option Instant} {rest : Series} (yielded : series.next = .ok (outcome, rest)) :
      Answers series .next (.occurrence outcome) rest
  | take {count : Nat} {instants : List Instant} {rest : Series}
      (taken : series.take count = .ok (instants, rest)) :
      Answers series (.take count) (.occurrences instants) rest
  | rewind : Answers series .rewind .done series.rewind
  | horizon (months : UInt32) : Answers series (.horizon months) .done (series.withHorizon months)

variable {series rest : Series} {command : Command} {reply : Reply} {outcome : Option Instant}

theorem rewind_of_next (yielded : series.next = .ok (outcome, rest)) :
    rest.rewind = series.rewind := by
  unfold next at yielded
  split at yielded
  case h_1 =>
      cases yielded
      rfl
  case h_2 =>
      split at yielded
      case h_1 => cases yielded
      all_goals
        cases yielded
        rfl

theorem rewind_of_take {count : Nat} {instants : List Instant}
    (taken : series.take count = .ok (instants, rest)) : rest.rewind = series.rewind := by
  induction count generalizing series instants with
  | zero =>
      cases taken
      rfl
  | succ count induction =>
      unfold take at taken
      split at taken
      case h_1 => cases taken
      case h_2 ended yielded =>
          cases taken
          exact rewind_of_next yielded
      case h_3 instant middle yielded =>
          rcases map_eq_ok_iff.mp taken with ⟨⟨later, last⟩, continued, same⟩
          cases same
          rw [induction continued, rewind_of_next yielded]

/-- Only the horizon of where a rewind leads can be changed. -/
theorem Answers.rewind_eq (answers : series.Answers command reply rest) :
    rest.rewind = series.rewind.withHorizon (command.setting series.horizon) := by
  cases answers with
  | next yielded =>
      have kept := rewind_of_next yielded
      exact kept
  | take taken =>
      have kept := rewind_of_take taken
      exact kept
  | rewind => rfl
  | horizon months => rfl

theorem next_of_ended (ended : series.position = none) : series.next = .ok (none, series) := by
  simp only [next, ended]

theorem take_of_ended (ended : series.position = none) (count : Nat) :
    series.take count = .ok ([], series) := by
  cases count with
  | zero => rfl
  | succ count => exact take_ends (next_of_ended ended) count

theorem ended_of_next (yielded : series.next = .ok (none, rest)) : rest.position = none := by
  unfold next at yielded
  split at yielded
  case h_1 known =>
      cases yielded
      exact known
  case h_2 =>
      split at yielded
      case h_1 => cases yielded
      case h_2 =>
          cases yielded
          rfl
      case h_3 => cases yielded

/-- Fewer occurrences than were asked for are all that there were. -/
theorem ended_of_take {count : Nat} {instants : List Instant}
    (taken : series.take count = .ok (instants, rest)) (fewer : instants.length < count) :
    rest.position = none := by
  induction count generalizing series instants with
  | zero => exact absurd fewer (Nat.not_lt_zero _)
  | succ count induction =>
      unfold take at taken
      split at taken
      case h_1 => cases taken
      case h_2 ended yielded =>
          cases taken
          exact ended_of_next yielded
      case h_3 instant middle yielded =>
          rcases map_eq_ok_iff.mp taken with ⟨⟨later, last⟩, continued, same⟩
          cases same
          exact induction continued (Nat.lt_of_succ_lt_succ fewer)

theorem Answers.ended (answers : series.Answers command reply rest)
    (ends : command.Ends reply) : rest.position = none := by
  cases answers with
  | next yielded =>
      rw [show _ = none from ends] at yielded
      exact ended_of_next yielded
  | take taken => exact ended_of_take taken ends
  | rewind => exact ends.elim
  | horizon => exact ends.elim

/-- A series that has ended brings nothing and stays ended, until it is rewound. -/
theorem Answers.of_ended (answers : series.Answers command reply rest)
    (ended : series.position = none) (noRewind : command ≠ .rewind) :
    command.BringsNothing reply ∧ rest.position = none := by
  cases answers with
  | next yielded =>
      rw [next_of_ended ended] at yielded
      cases yielded
      exact ⟨rfl, ended⟩
  | take taken =>
      rw [take_of_ended ended] at taken
      cases taken
      exact ⟨rfl, ended⟩
  | rewind => exact absurd rfl noRewind
  | horizon => exact ⟨trivial, ended⟩

end Series

namespace Session

variable {session middle last : Session} {series rest : Series} {command : Command} {reply : Reply}

theorem run_on_of_answers (session : Session) (answers : series.Answers command reply rest) :
    session.runOn series command = .ok (reply, session.put rest) := by
  cases answers with
  | next yielded =>
      rw [runOn, yielded]
      rfl
  | take taken =>
      rw [runOn, taken]
      rfl
  | rewind => rfl
  | horizon => rfl

theorem run_of_answers (held : session.slots[session.current]? = some series)
    (answers : series.Answers command reply rest) :
    session.run command = .ok (reply, session.put rest) := by
  simp only [run, held]
  exact run_on_of_answers session answers

theorem answers_of_run_on (acts : command.Acts)
    (ran : session.runOn series command = .ok (reply, last)) :
    ∃ rest, series.Answers command reply rest ∧ last = session.put rest := by
  cases command with
  | next =>
      rcases map_eq_ok_iff.mp ran with ⟨⟨outcome, rest⟩, yielded, same⟩
      cases same
      exact ⟨rest, .next yielded, rfl⟩
  | take count =>
      rcases map_eq_ok_iff.mp ran with ⟨⟨instants, rest⟩, taken, same⟩
      cases same
      exact ⟨rest, .take taken, rfl⟩
  | rewind =>
      cases ran
      exact ⟨series.rewind, .rewind, rfl⟩
  | horizon months =>
      cases ran
      exact ⟨series.withHorizon months, .horizon months, rfl⟩
  | clone => exact acts.elim
  | select slot => exact acts.elim

/-- A series that is alone in its session is all that a command acts on. -/
theorem run_alone_iff (acts : command.Acts) :
    (ofSeries series).run command = .ok (reply, last) ↔
      ∃ rest, series.Answers command reply rest ∧ last = ofSeries rest := by
  constructor
  · intro ran
    exact answers_of_run_on acts ran
  · intro answered
    rcases answered with ⟨rest, answers, rfl⟩
    have held : (ofSeries series).slots[(ofSeries series).current]? = some series := rfl
    exact run_of_answers held answers

end Session

/-- Commands with the replies that they were given, in their order. -/
abbrev Transcript := List (Command × Reply)

namespace Session

variable {session middle last : Session} {series rest : Series} {command : Command} {reply : Reply}
  {transcript earlier later : Transcript}

/-- The session gives just these replies to just these commands. -/
def Ran (session : Session) (transcript : Transcript) (last : Session) : Prop :=
  session.runAll (transcript.map Prod.fst) = .ok (transcript.map Prod.snd, last)

theorem ran_nil_iff : session.Ran [] last ↔ last = session := by
  simp only [Ran, List.map_nil, runAll, Except.ok.injEq, Prod.mk.injEq, true_and]
  exact eq_comm

theorem ran_cons_iff :
    session.Ran ((command, reply) :: later) last ↔
      ∃ middle, session.run command = .ok (reply, middle) ∧ middle.Ran later last := by
  simp only [Ran, List.map_cons, runAll]
  cases session.run command with
  | error fault => simp
  | ok pair =>
      simp only [map_eq_ok_iff]
      constructor
      · intro ran
        rcases ran with ⟨⟨replies, finish⟩, continued, same⟩
        cases same
        exact ⟨pair.2, rfl, continued⟩
      · intro ran
        rcases ran with ⟨middle, same, continued⟩
        cases same
        exact ⟨(later.map Prod.snd, last), continued, rfl⟩

theorem ran_append_iff :
    session.Ran (earlier ++ later) last ↔
      ∃ middle, session.Ran earlier middle ∧ middle.Ran later last := by
  induction earlier generalizing session with
  | nil => simp [ran_nil_iff]
  | cons entry earlier induction =>
      rcases entry with ⟨command, reply⟩
      rw [List.cons_append, ran_cons_iff]
      simp only [ran_cons_iff, induction]
      constructor
      · intro ran
        rcases ran with ⟨second, first, middle, before, after⟩
        exact ⟨middle, ⟨second, first, before⟩, after⟩
      · intro ran
        rcases ran with ⟨middle, ⟨second, first, before⟩, after⟩
        exact ⟨second, first, middle, before, after⟩

theorem length_of_run_all {commands : List Command} {replies : List Reply}
    (ran : session.runAll commands = .ok (replies, last)) : replies.length = commands.length := by
  induction commands generalizing session replies with
  | nil =>
      cases ran
      rfl
  | cons command later induction =>
      unfold runAll at ran
      split at ran
      case h_1 => cases ran
      case h_2 reply middle answered =>
          rcases map_eq_ok_iff.mp ran with ⟨⟨others, finish⟩, continued, same⟩
          cases same
          rw [List.length_cons, List.length_cons, induction continued]

/-- Every run has its transcript. -/
theorem ran_of_run_all {commands : List Command} {replies : List Reply}
    (ran : session.runAll commands = .ok (replies, last)) :
    session.Ran (commands.zip replies) last := by
  have counted := length_of_run_all ran
  rw [Ran, List.map_fst_zip (Nat.le_of_eq counted.symm),
    List.map_snd_zip (Nat.le_of_eq counted), ran]

/-- Every list of commands on a sound series has its run. -/
theorem exists_ran {expression : Expression} (sound : series.Sound expression)
    (commands : List Command) :
    ∃ replies last, (ofSeries series).runAll commands = .ok (replies, last) ∧
      replies.length = commands.length ∧
      (ofSeries series).Ran (commands.zip replies) last := by
  rcases (sound_of_series sound).run_all commands with ⟨replies, last, ranAll, _⟩
  exact ⟨replies, last, ranAll, length_of_run_all ranAll, ran_of_run_all ranAll⟩

theorem ran_alone_cons_iff (acts : command.Acts) :
    (ofSeries series).Ran ((command, reply) :: later) last ↔
      ∃ rest, series.Answers command reply rest ∧ (ofSeries rest).Ran later last := by
  rw [ran_cons_iff]
  simp only [run_alone_iff acts]
  constructor
  · intro ran
    rcases ran with ⟨_, ⟨rest, answers, rfl⟩, continued⟩
    exact ⟨rest, answers, continued⟩
  · intro ran
    rcases ran with ⟨rest, answers, continued⟩
    exact ⟨ofSeries rest, ⟨rest, answers, rfl⟩, continued⟩

/-- A series that has ended brings nothing until it is rewound. -/
theorem nothing_of_ran (acts : ∀ entry ∈ transcript, entry.1.Acts)
    (ran : (ofSeries series).Ran transcript last) (ended : series.position = none)
    (noRewind : ∀ entry ∈ transcript, entry.1 ≠ .rewind) :
    ∀ entry ∈ transcript, entry.1.BringsNothing entry.2 := by
  induction transcript generalizing series with
  | nil =>
      intro entry member
      cases member
  | cons entry later induction =>
      rcases List.forall_mem_cons.mp acts with ⟨entryActs, laterActs⟩
      rcases List.forall_mem_cons.mp noRewind with ⟨entryNoRewind, laterNoRewind⟩
      rcases (ran_alone_cons_iff entryActs).mp ran with ⟨middle, answers, continued⟩
      rcases answers.of_ended ended entryNoRewind with ⟨nothing, stays⟩
      intro other member
      rcases List.mem_cons.mp member with rfl | member
      · exact nothing
      · exact induction laterActs continued stays laterNoRewind other member

end Session

/-- Only an instant with a representable local time has a series, which stands at its
beginning with the usual horizon. -/
theorem Expression.begun_of_series {expression : Expression} {zone : Zone} {origin : Instant}
    {fresh : Series} (made : expression.series zone origin = .ok fresh) :
    InSpan (zone.localCount origin) ∧ fresh.rewind = fresh ∧
      fresh.horizon = Series.defaultHorizon := by
  rcases bind_eq_ok_iff.mp made with ⟨schedule, _, begun⟩
  unfold Series.ofSchedule at begun
  split at begun
  case isFalse => cases begun
  case isTrue inSpan =>
      rcases bind_eq_ok_iff.mp begun with ⟨start, _, same⟩
      cases same
      exact ⟨inSpan, rfl, rfl⟩

end CronSchedule
