import CronSchedule.Proofs.Series.Transcript

/-!
# Clones go their own ways

The chronicle of a session has the past of each of its series: what it was asked and what
it replied, with the past of the series that it was cloned from in front. After any run
each series is what a fresh series comes to that is alone in its session and is asked its
past only, and all replies in the past are those of that fresh series. So no series sees
what the others are asked. After a rewind a series goes on as a fresh one does, and after
its end it brings nothing more until it is rewound.
-/

namespace CronSchedule

set_option autoImplicit false

/-- The horizon that was set last in a transcript, or else the one in force before it. -/
def Transcript.horizonAfter (current : UInt32) (transcript : Transcript) : UInt32 :=
  transcript.foldl (fun horizon entry => entry.1.setting horizon) current

/-- The pasts of the series of a session by their numbers, and the number of the current
one. -/
structure Chronicle where
  pasts : List Transcript
  current : Nat
  deriving DecidableEq, Repr

namespace Chronicle

/-- A session opens with one series that has no past. -/
def opening : Chronicle := ⟨[[]], 0⟩

/-- What is asked and replied goes into the past of the current series. A clone of it gets
the same past. -/
def note (chronicle : Chronicle) (entry : Command × Reply) : Chronicle :=
  match entry.1 with
  | .clone =>
      { chronicle with pasts := chronicle.pasts ++ [chronicle.pasts.getD chronicle.current []] }
  | .select slot =>
      if slot < chronicle.pasts.length then { chronicle with current := slot } else chronicle
  | _ => { chronicle with pasts := chronicle.pasts.modify chronicle.current (· ++ [entry]) }

def ofTranscript (transcript : Transcript) : Chronicle := transcript.foldl note opening

end Chronicle

namespace Session

variable {session last : Session} {series rest fresh : Series} {command : Command} {reply : Reply}
  {past before later : Transcript}

/-- A series that is alone stays alone as long as it is only acted on. -/
theorem alone_of_ran (acts : ∀ entry ∈ past, entry.1.Acts)
    (ran : (ofSeries series).Ran past last) : ∃ rest, last = ofSeries rest := by
  induction past generalizing series with
  | nil => exact ⟨series, ran_nil_iff.mp ran⟩
  | cons entry later induction =>
      rcases List.forall_mem_cons.mp acts with ⟨entryActs, laterActs⟩
      rcases (ran_alone_cons_iff entryActs).mp ran with ⟨middle, _, continued⟩
      exact induction laterActs continued

/-- Whatever a series is asked, a rewind leads to its beginning with the horizon set last. -/
theorem rewind_of_ran (acts : ∀ entry ∈ past, entry.1.Acts)
    (ran : (ofSeries series).Ran past (ofSeries rest)) :
    rest.rewind = series.rewind.withHorizon (past.horizonAfter series.horizon) := by
  induction past generalizing series with
  | nil =>
      have same := ran_nil_iff.mp ran
      cases same
      rfl
  | cons entry later induction =>
      rcases List.forall_mem_cons.mp acts with ⟨entryActs, laterActs⟩
      rcases (ran_alone_cons_iff entryActs).mp ran with ⟨middle, answers, continued⟩
      have kept := answers.rewind_eq
      have setting : middle.horizon = entry.1.setting series.horizon :=
        congrArg Series.horizon kept
      have rewound := induction laterActs continued
      rw [kept, setting] at rewound
      exact rewound

/-- A series has lived through a past when a fresh one that is alone gives the same replies
to the same commands and comes to the same state. -/
structure Lived (fresh : Series) (past : Transcript) (series : Series) : Prop where
  acts : ∀ entry ∈ past, entry.1.Acts
  alone : (ofSeries fresh).Ran past (ofSeries series)

theorem Lived.snoc (lived : Lived fresh past series) (acts : command.Acts)
    (answers : series.Answers command reply rest) :
    Lived fresh (past ++ [(command, reply)]) rest := by
  constructor
  case acts =>
      intro entry member
      rcases List.mem_append.mp member with earlier | last
      · exact lived.acts entry earlier
      · rw [List.mem_singleton.mp last]
        exact acts
  case alone =>
      apply ran_append_iff.mpr
      refine ⟨ofSeries series, lived.alone, ?_⟩
      apply (ran_alone_cons_iff acts).mpr
      exact ⟨rest, answers, ran_nil_iff.mpr rfl⟩

/-- A past may be taken apart anywhere: the series has come to some state there. -/
theorem Lived.split (lived : Lived fresh (before ++ later) series) :
    ∃ middle, Lived fresh before middle ∧ Lived middle later series := by
  rcases List.forall_mem_append.mp lived.acts with ⟨beforeActs, laterActs⟩
  rcases ran_append_iff.mp lived.alone with ⟨session, ran, continued⟩
  rcases alone_of_ran beforeActs ran with ⟨middle, rfl⟩
  exact ⟨middle, ⟨beforeActs, ran⟩, ⟨laterActs, continued⟩⟩

theorem Lived.cons (lived : Lived fresh ((command, reply) :: later) series) :
    ∃ middle, fresh.Answers command reply middle ∧ Lived middle later series := by
  rcases List.forall_mem_cons.mp lived.acts with ⟨acts, laterActs⟩
  rcases (ran_alone_cons_iff acts).mp lived.alone with ⟨middle, answers, continued⟩
  exact ⟨middle, answers, ⟨laterActs, continued⟩⟩

/-- What follows a rewind is what a fresh series is asked and replies. -/
theorem Lived.rewound (begun : fresh.rewind = fresh)
    (lived : Lived fresh (before ++ (.rewind, reply) :: later) series) :
    (ofSeries (fresh.withHorizon (before.horizonAfter fresh.horizon))).Ran later
      (ofSeries series) := by
  rcases lived.split with ⟨middle, livedBefore, rest⟩
  rcases rest.cons with ⟨again, answers, livedLater⟩
  cases answers
  have rewound := rewind_of_ran livedBefore.acts livedBefore.alone
  rw [begun] at rewound
  rw [← rewound]
  exact livedLater.alone

theorem Lived.ended {entry : Command × Reply} {stretch after : Transcript}
    (lived : Lived fresh (before ++ entry :: stretch ++ after) series)
    (ends : entry.1.Ends entry.2) (noRewind : ∀ other ∈ stretch, other.1 ≠ .rewind) :
    ∀ other ∈ stretch, other.1.BringsNothing other.2 := by
  rcases lived.split with ⟨_, livedStretch, _⟩
  rcases livedStretch.split with ⟨_, _, fromEntry⟩
  rcases fromEntry.cons with ⟨_, answers, livedAfter⟩
  exact nothing_of_ran livedAfter.acts livedAfter.alone (answers.ended ends) noRewind

/-- The chronicle keeps up with the session: each series has lived through its past. -/
structure Keeps (fresh : Series) (session : Session) (chronicle : Chronicle) : Prop where
  current : chronicle.current = session.current
  inRange : session.current < session.slots.length
  count : chronicle.pasts.length = session.slots.length
  lived : ∀ (slot : Nat) (past : Transcript) (series : Series),
    chronicle.pasts[slot]? = some past → session.slots[slot]? = some series →
      Lived fresh past series

variable {chronicle : Chronicle}

theorem keeps_opening (fresh : Series) : Keeps fresh (ofSeries fresh) Chronicle.opening := by
  constructor
  case current => rfl
  case inRange => exact Nat.one_pos
  case count => rfl
  case lived =>
      intro slot past series known held
      cases slot with
      | zero =>
          cases known
          cases held
          exact ⟨by simp, ran_nil_iff.mpr rfl⟩
      | succ slot => cases known

theorem Keeps.exists_past (keeps : Keeps fresh session chronicle) :
    ∃ past, chronicle.pasts[chronicle.current]? = some past := by
  have inPasts : chronicle.current < chronicle.pasts.length := by
    rw [keeps.current, keeps.count]
    exact keeps.inRange
  exact ⟨_, List.getElem?_eq_getElem inPasts⟩

theorem note_of_acts (chronicle : Chronicle) (acts : command.Acts) (reply : Reply) :
    chronicle.note (command, reply) = { chronicle with
      pasts := chronicle.pasts.modify chronicle.current (· ++ [(command, reply)]) } := by
  cases command with
  | clone => exact acts.elim
  | select slot => exact acts.elim
  | next => rfl
  | take count => rfl
  | rewind => rfl
  | horizon months => rfl

/-- A command that acts changes the current series only, and only its past. -/
theorem Keeps.answers (keeps : Keeps fresh session chronicle)
    (held : session.slots[session.current]? = some series) (acts : command.Acts)
    (answers : series.Answers command reply rest) :
    Keeps fresh (session.put rest) (chronicle.note (command, reply)) := by
  rw [note_of_acts chronicle acts]
  constructor
  case current => exact keeps.current
  case inRange => simpa [put] using keeps.inRange
  case count => simpa [put] using keeps.count
  case lived =>
      intro slot past other known otherHeld
      simp only [keeps.current, List.getElem?_modify, Option.map_eq_map,
        Option.map_eq_some_iff] at known
      simp only [put, List.getElem?_set] at otherHeld
      rcases known with ⟨earlier, knownEarlier, same⟩
      by_cases own : session.current = slot
      · rw [if_pos own, if_pos keeps.inRange] at otherHeld
        cases otherHeld
        rw [if_pos own] at same
        rw [← own] at knownEarlier
        rw [← same]
        exact (keeps.lived _ earlier series knownEarlier held).snoc acts answers
      · rw [if_neg own] at otherHeld
        rw [if_neg own] at same
        rw [← same]
        exact keeps.lived slot earlier other knownEarlier otherHeld

/-- A clone has the past of the current series and is in the same state. -/
theorem Keeps.clone (keeps : Keeps fresh session chronicle)
    (held : session.slots[session.current]? = some series) (reply : Reply) :
    Keeps fresh { session with slots := session.slots ++ [series] }
      (chronicle.note (.clone, reply)) := by
  rcases keeps.exists_past with ⟨current, knownCurrent⟩
  constructor
  case current => exact keeps.current
  case inRange =>
      rw [List.length_append]
      exact Nat.lt_add_right _ keeps.inRange
  case count => simp [Chronicle.note, keeps.count]
  case lived =>
      intro slot past other known otherHeld
      simp only [Chronicle.note, List.getD_eq_getElem?_getD, knownCurrent,
        Option.getD_some] at known
      by_cases before : slot < session.slots.length
      · rw [List.getElem?_append_left before] at otherHeld
        rw [← keeps.count] at before
        rw [List.getElem?_append_left before] at known
        exact keeps.lived slot past other known otherHeld
      · have beyond := Nat.le_of_not_lt before
        rw [List.getElem?_append_right beyond, List.getElem?_singleton] at otherHeld
        rw [← keeps.count] at beyond
        rw [List.getElem?_append_right beyond, List.getElem?_singleton] at known
        split at known
        case isFalse => cases known
        case isTrue =>
            split at otherHeld
            case isFalse => cases otherHeld
            case isTrue =>
                cases known
                cases otherHeld
                rw [keeps.current] at knownCurrent
                exact keeps.lived _ _ series knownCurrent held

theorem Keeps.select (keeps : Keeps fresh session chronicle) (slot : Nat) (reply : Reply)
    (inside : slot < session.slots.length) :
    Keeps fresh { session with current := slot } (chronicle.note (.select slot, reply)) := by
  have inPasts : slot < chronicle.pasts.length := by
    rw [keeps.count]
    exact inside
  simp only [Chronicle.note, if_pos inPasts]
  exact ⟨rfl, inside, keeps.count, keeps.lived⟩

theorem Keeps.select_nothing (keeps : Keeps fresh session chronicle) (slot : Nat) (reply : Reply)
    (outside : ¬slot < session.slots.length) :
    Keeps fresh session (chronicle.note (.select slot, reply)) := by
  have notInPasts : ¬slot < chronicle.pasts.length := by
    rw [keeps.count]
    exact outside
  simp only [Chronicle.note, if_neg notInPasts]
  exact keeps

theorem Keeps.run (keeps : Keeps fresh session chronicle)
    (ran : session.run command = .ok (reply, last)) :
    Keeps fresh last (chronicle.note (command, reply)) := by
  have held := List.getElem?_eq_getElem keeps.inRange
  simp only [Session.run, held] at ran
  by_cases acts : command.Acts
  · rcases answers_of_run_on acts ran with ⟨rest, answers, rfl⟩
    exact keeps.answers held acts answers
  · rcases Command.clone_or_select_of_not_acts acts with rfl | ⟨slot, rfl⟩
    · cases ran
      exact keeps.clone held _
    · simp only [runOn] at ran
      split at ran
      case isTrue inside =>
          cases ran
          exact keeps.select slot _ inside
      case isFalse outside =>
          cases ran
          exact keeps.select_nothing slot _ outside

/-- A run keeps the chronicle up with the session. -/
theorem Keeps.ran {transcript : Transcript} (keeps : Keeps fresh session chronicle)
    (ran : session.Ran transcript last) :
    Keeps fresh last (transcript.foldl Chronicle.note chronicle) := by
  induction transcript generalizing session chronicle with
  | nil =>
      rw [ran_nil_iff.mp ran]
      exact keeps
  | cons entry later induction =>
      rcases entry with ⟨command, reply⟩
      rcases ran_cons_iff.mp ran with ⟨middle, first, continued⟩
      exact induction (keeps.run first) continued

/-- What a run tells of the series that it has acted on, by the chronicle of the run. -/
structure Account (fresh : Series) (transcript : Transcript) (last : Session) : Prop where
  current : (Chronicle.ofTranscript transcript).current = last.current
  count : (Chronicle.ofTranscript transcript).pasts.length = last.slots.length
  /-- No other series has a part in what a series replies. -/
  alone : ∀ (slot : Nat) (past : Transcript) (series : Series),
    (Chronicle.ofTranscript transcript).pasts[slot]? = some past →
      last.slots[slot]? = some series → (ofSeries fresh).Ran past (ofSeries series)
  /-- After a rewind a series goes on like a fresh one with the horizon that was set last. -/
  rewound : ∀ (slot : Nat) (before later : Transcript) (reply : Reply) (series : Series),
    (Chronicle.ofTranscript transcript).pasts[slot]? = some (before ++ (.rewind, reply) :: later) →
      last.slots[slot]? = some series →
        (ofSeries (fresh.withHorizon (before.horizonAfter Series.defaultHorizon))).Ran later
          (ofSeries series)
  /-- After its end a series brings nothing until it is rewound. -/
  ended : ∀ (slot : Nat) (before stretch after : Transcript) (entry : Command × Reply),
    (Chronicle.ofTranscript transcript).pasts[slot]? = some (before ++ entry :: stretch ++ after) →
      entry.1.Ends entry.2 → (∀ other ∈ stretch, other.1 ≠ .rewind) →
        ∀ other ∈ stretch, other.1.BringsNothing other.2

theorem Keeps.exists_held (keeps : Keeps fresh session chronicle) {slot : Nat}
    (known : chronicle.pasts[slot]? = some past) :
    ∃ series, session.slots[slot]? = some series := by
  have inSlots : slot < session.slots.length := by
    rw [← keeps.count]
    exact (List.getElem?_eq_some_iff.mp known).1
  exact ⟨_, List.getElem?_eq_getElem inSlots⟩

theorem account_of_keeps {transcript : Transcript}
    (begun : fresh.rewind = fresh) (usual : fresh.horizon = Series.defaultHorizon)
    (keeps : Keeps fresh last (Chronicle.ofTranscript transcript)) :
    Account fresh transcript last := by
  constructor
  case current => exact keeps.current
  case count => exact keeps.count
  case alone =>
      intro slot past series known held
      exact (keeps.lived slot past series known held).alone
  case rewound =>
      intro slot before later reply series known held
      rw [← usual]
      exact (keeps.lived slot _ series known held).rewound begun
  case ended =>
      intro slot before stretch after entry known ends noRewind
      rcases keeps.exists_held known with ⟨series, held⟩
      exact (keeps.lived slot _ series known held).ended ends noRewind

end Session

namespace Expression

variable {text : String} {expression : Expression} {zone : Zone} {origin : Instant}
  {fresh : Series}

/-- Every run of commands on a fresh series and its clones is answered, and gives an account
of each of them: what it replies depends on its own past alone, a rewind takes it back to a
fresh series with the horizon it was last given, and once it has ended it brings nothing
before the next rewind. -/
theorem sessions_keep_series_apart (accepted : parse text = .ok expression)
    (made : expression.series zone origin = .ok fresh) (commands : List Command) :
    ∃ replies last, (Session.ofSeries fresh).runAll commands = .ok (replies, last) ∧
      replies.length = commands.length ∧
      Session.Account fresh (commands.zip replies) last := by
  rcases begun_of_series made with ⟨inSpan, begun, usual⟩
  rcases series_sound accepted inSpan with ⟨series, sameMade, sound⟩
  rw [made] at sameMade
  cases sameMade
  rcases Session.exists_ran sound commands with ⟨replies, last, ranAll, counted, ran⟩
  have account := Session.account_of_keeps begun usual ((Session.keeps_opening fresh).ran ran)
  exact ⟨replies, last, ranAll, counted, account⟩

/-- The first of each month, asked for in the middle of January with no months ahead. The
series ends at once, and its clone stays ended when the series itself is rewound. -/
theorem sessions_keep_series_apart_after_end :
    let expression : Expression :=
      ⟨none, .specific 0, .specific 0, .specific 1, .any, .any⟩
    let origin : Instant := .ofUniversal ⟨⟨2024, 1, 15⟩, ⟨0, 0, 0⟩⟩ 0
    let february : Instant := .ofUniversal ⟨⟨2024, 2, 1⟩, ⟨0, 0, 0⟩⟩ 0
    let commands : List Command :=
      [.horizon 0, .next, .clone, .horizon 1, .rewind, .next, .select 1, .next]
    let replies : List Reply := [.done, .occurrence none, .created 1, .done, .done,
      .occurrence (some february), .done, .occurrence none]
    parse "0 0 1 * *" = .ok expression ∧
      (Chronicle.ofTranscript (commands.zip replies)).pasts =
        [[(.horizon 0, .done), (.next, .occurrence none), (.horizon 1, .done), (.rewind, .done),
            (.next, .occurrence (some february))],
          [(.horizon 0, .done), (.next, .occurrence none), (.next, .occurrence none)]] ∧
      ∃ fresh last, expression.series .utc origin = .ok fresh ∧
        (Session.ofSeries fresh).runAll commands = .ok (replies, last) ∧
        Session.Account fresh (commands.zip replies) last := by
  intro expression origin february commands replies
  have accepted : parse "0 0 1 * *" = .ok expression := by decide
  let schedule : Schedule := ⟨false, .singleton 0, .singleton 0, .singleton 0,
    some (.singleton 1), .stepping 1 12 1, none⟩
  let start : Moment := ⟨⟨2024, 1, 15⟩, ⟨0, 1, 0⟩⟩
  let found : Moment := ⟨⟨2024, 2, 1⟩, ⟨0, 0, 0⟩⟩
  let fresh : Series := ⟨schedule, .utc, Series.defaultHorizon, start, origin, some start, origin⟩
  have made : expression.series .utc origin = .ok fresh :=
    series_of_step (by decide) (by decide) (by decide)
  have nextMonth : schedule.probe start = .ok (.miss found) := by decide
  have nothing : schedule.search start 0 = .ok none := by
    rw [Schedule.search, Schedule.search_up_to_miss (by decide) nextMonth]
    exact Schedule.search_up_to_beyond (by decide)
  have hit : schedule.search start 1 = .ok (some found) := by
    rw [Schedule.search, Schedule.search_up_to_miss (by decide) nextMonth]
    exact Schedule.search_up_to_hit (by decide) (by decide)
  let short : Series := fresh.withHorizon 0
  let long : Series := fresh.withHorizon 1
  have ended : short.next = .ok (none, short.halted) := Series.next_ends rfl nothing
  have yielded : long.next = .ok (some february, long.resumed february ⟨⟨2024, 2, 1⟩, ⟨0, 1, 0⟩⟩) :=
    Series.next_yields rfl hit (by decide) rfl (by decide)
  have stays : short.halted.next = .ok (none, short.halted) := Series.next_of_ended rfl
  have ran : (Session.ofSeries fresh).Ran (commands.zip replies)
      ⟨[long.resumed february ⟨⟨2024, 2, 1⟩, ⟨0, 1, 0⟩⟩, short.halted], 1⟩ := by
    apply Session.ran_cons_iff.mpr ⟨_, rfl, ?_⟩
    apply Session.ran_cons_iff.mpr ⟨_, Session.run_of_answers rfl (.next ended), ?_⟩
    apply Session.ran_cons_iff.mpr ⟨_, rfl, ?_⟩
    apply Session.ran_cons_iff.mpr ⟨_, rfl, ?_⟩
    apply Session.ran_cons_iff.mpr ⟨_, rfl, ?_⟩
    apply Session.ran_cons_iff.mpr ⟨_, Session.run_of_answers rfl (.next yielded), ?_⟩
    apply Session.ran_cons_iff.mpr ⟨_, rfl, ?_⟩
    apply Session.ran_cons_iff.mpr ⟨_, Session.run_of_answers rfl (.next stays), ?_⟩
    exact Session.ran_nil_iff.mpr rfl
  have ranAll : (Session.ofSeries fresh).runAll commands = .ok (replies, _) := ran
  rcases sessions_keep_series_apart accepted made commands with ⟨_, last, same, _, account⟩
  rw [ranAll] at same
  cases same
  exact ⟨accepted, rfl, fresh, _, made, ranAll, account⟩

end Expression

end CronSchedule
