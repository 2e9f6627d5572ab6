import CronSchedule.Proofs.Expression.Reader

/-!
# The clauses about the time of day

The time of day is told in clauses with commas between them. Enumerations have
commas of their own, but a clause says by its first words how far it reaches. So
the clauses are read back one by one, and what they say of the units of the clock
is what the expression says of them.
-/

namespace CronSchedule

set_option autoImplicit false

namespace Reader

theorem reads_numbers (values : List Nat) :
    Phrase.Reads (Phrase.enumeration (values.map Description.numberWord))
      (Token.enumeration (values.map .number)) :=
  Phrase.reads_enumeration_map fun value _ => Phrase.plain_number_word value

theorem clock_unit_spec : ∀ field ∈ clockUnits,
    (unit? field.name = some field ∧ unit? (field.name ++ "s") = none ∧
      units? (field.name ++ "s") = some field) ∧
      Phrase.Plain field.name (.word field.name) ∧
      Phrase.Plain (field.name ++ "s") (.word (field.name ++ "s")) := by
  decide

theorem clause_every {field : Field} (clockUnit : field ∈ clockUnits) (size : Nat)
    (rest : List Token) :
    clause (Token.every size field.name ++ rest) =
      some ((step [] size rest).map (.unit field) id) := by
  obtain ⟨⟨one, _, many⟩, _⟩ := clock_unit_spec field clockUnit
  unfold Token.every
  split
  case isTrue single =>
      subst single
      simp [clause, one]
  case isFalse => simp [clause, many]

/-- A clause opens with one of two words, is followed by a comma only behind its
second token, and is read up to its end. -/
def Tells (phrase : Phrase) (said : Clause) : Prop :=
  ∃ opening next tail, (opening = "at" ∨ opening = "every") ∧ next ≠ .comma ∧
    phrase.Reads (.word opening :: next :: tail) ∧ ∀ rest, NoBounds [] rest →
      clause (.word opening :: next :: (tail ++ rest)) = some (said, rest)

theorem tells_step {field : Field} (clockUnit : field ∈ clockUnits) (size : Nat)
    {bounds : Phrase} {tokens : List Token} {rule : Rule} (reads : bounds.Reads tokens)
    (read : ∀ rest, NoBounds [] rest → step [] size (tokens ++ rest) = (rule, rest)) :
    Tells (Description.every size field.name ++ bounds) (.unit field rule) := by
  obtain ⟨_, plain, plainMany⟩ := clock_unit_spec field clockUnit
  have whole := (Phrase.reads_every size plain plainMany).append reads
  have opened : ∃ next tail, Token.every size field.name = .word "every" :: next :: tail ∧
      next ≠ .comma := by
    unfold Token.every
    split
    · exact ⟨_, _, rfl, by simp⟩
    · exact ⟨_, _, rfl, by simp⟩
  obtain ⟨next, tail, known, noComma⟩ := opened
  refine ⟨"every", next, tail ++ tokens, Or.inr rfl, noComma, ?_, ?_⟩
  · rwa [known] at whole
  · intro rest ends
    have found := clause_every clockUnit size (tokens ++ rest)
    rw [known, read rest ends] at found
    simpa using found

/-- How a unit is spoken of where it has to be mentioned. -/
def mention (field : Field) (rule : Rule) : Phrase :=
  (Description.unitPhrase field.name rule).getD (Description.every 1 field.name)

theorem mention_tells {field : Field} (clockUnit : field ∈ clockUnits) {rule : Rule}
    (wellFormed : rule.WellFormed field) :
    Tells (mention field rule) (.unit field rule.plain) := by
  obtain ⟨⟨one, notMany, many⟩, plain, plainMany⟩ := clock_unit_spec field clockUnit
  -- Four of the six forms are steps, with or without bounds.
  have unbounded : ∀ size,
      Tells (Description.every size field.name) (.unit field (.step size)) := by
    intro size
    have told := tells_step clockUnit size .nil fun rest ends => ends size
    rwa [List.append_nil] at told
  have bounded : ∀ lo hi size, Tells (Description.every size field.name ++
      ["from", Description.numberWord lo, "through", Description.numberWord hi])
      (.unit field (.stepRange lo hi size)) := by
    intro lo hi size
    have reads : Phrase.Reads
        ["from", Description.numberWord lo, "through", Description.numberWord hi]
        [.word "from", .number lo, .word "through", .number hi] :=
      .plain (by decide) (.plain (Phrase.plain_number_word lo)
        (.plain (by decide) (.plain (Phrase.plain_number_word hi) .nil)))
    exact tells_step clockUnit size reads fun rest _ => step_bounds rfl rfl size rest
  cases rule with
  | any => exact unbounded 1
  | specific value =>
      refine ⟨"at", _, _, Or.inl rfl, by simp, .plain (by decide) (.plain plain
        (.plain (Phrase.plain_number_word value) .nil)), ?_⟩
      intro rest _
      simp [clause, one, single, Rule.plain]
  | list values =>
      have several := wellFormed.1
      have read : ∀ value ∈ values, value? [] (.number value) = some value := fun _ _ => rfl
      refine ⟨"at", _, _, Or.inl rfl, by simp,
        .plain (by decide) (.plain plainMany (reads_numbers values.toList)), ?_⟩
      intro rest _
      simp [clause, notMany, many, choice_list several read, Rule.plain]
  | range lo hi => exact bounded lo hi 1
  | step size => exact unbounded size
  | stepRange lo hi size => exact bounded lo hi size

theorem clock_tells {hour minute : Nat} (second : Option Nat) :
    Tells ["at", Description.clockWord (hour :: minute :: second.toList)]
      (.clock hour minute second) := by
  refine ⟨"at", _, [], Or.inl rfl, by simp, .plain (by decide)
    (.plain (Phrase.plain_clock_word (by simp)) .nil), ?_⟩
  intro rest _
  cases second <;> rfl

/-- Clauses are told apart by the commas between them. -/
theorem clauses_spec {phrases : List Phrase} {said : List Clause}
    (told : List.Forall₂ Tells phrases said) (nonempty : said ≠ []) {count : Nat}
    (bounded : said.length ≤ count) :
    ∃ opening next tail, (opening = "at" ∨ opening = "every") ∧ next ≠ .comma ∧
      (Phrase.commaSeparated phrases).Reads (.word opening :: next :: tail) ∧
      ∀ rest, NoBounds [] rest → rest.head? ≠ some .comma →
        clauses count (.word opening :: next :: (tail ++ rest)) = some (said, rest) := by
  induction told generalizing count with
  | nil => exact absurd rfl nonempty
  | @cons phrase clause phrases said first others induction =>
      obtain ⟨opening, next, tail, opens, noComma, reads, read⟩ := first
      obtain ⟨count, rfl⟩ : ∃ fewer, count = fewer + 1 :=
        Nat.exists_eq_succ_of_ne_zero (by rw [List.length_cons] at bounded; omega)
      refine ⟨opening, next, ?_⟩
      cases others with
      | nil =>
          refine ⟨tail, opens, noComma, reads, ?_⟩
          intro rest ends last
          rw [clauses, read rest ends]
          match rest with
          | [] => rfl
          | .comma :: _ => exact absurd rfl last
          | .number _ :: _ => rfl
          | .clock _ :: _ => rfl
          | .word _ :: _ => rfl
      | cons second others =>
          -- The comma bounds no step, so the first clause is read up to it.
          obtain ⟨later, laterNext, laterTail, _, _, laterReads, laterRead⟩ :=
            induction (by simp) (Nat.le_of_succ_le_succ bounded)
          refine ⟨tail ++ .comma :: .word later :: laterNext :: laterTail, opens, noComma, ?_, ?_⟩
          · obtain ⟨word, words, known⟩ := reads.exists_cons
            obtain ⟨laterWord, laterWords, laterKnown⟩ := laterReads.exists_cons
            rw [laterKnown] at laterReads
            rw [Phrase.commaSeparated, laterKnown]
            · exact reads.append_after_comma (by simp [known]) laterReads
            · simp
          · intro rest ends last
            have found := read (.comma :: .word later :: laterNext :: (laterTail ++ rest))
              fun _ => rfl
            rw [clauses]
            simp [found, laterRead rest ends last]

/-- An unrestricted unit has no clause. -/
def unitClauses (field : Field) (rule : Rule) : List Clause :=
  if rule.isAny then [] else [.unit field rule.plain]

theorem unit_phrases_tell {field : Field} (clockUnit : field ∈ clockUnits) {rule : Rule}
    (wellFormed : rule.WellFormed field) :
    List.Forall₂ Tells (Description.unitPhrase field.name rule).toList
      (unitClauses field rule) := by
  have told := mention_tells clockUnit wellFormed
  cases rule with
  | any => exact .nil
  | _ => exact .cons told .nil

theorem find_unit_clauses (field other : Field) (rule : Rule) :
    (unitClauses other rule).findSome? (Clause.rule? field) =
      if other = field ∧ rule.isAny = false then some rule.plain else none := by
  unfold unitClauses
  cases rule.isAny <;> simp [Clause.rule?]

/-- A unit that is not mentioned is unrestricted. -/
theorem get_plain (rule : Rule) :
    (if rule.isAny = false then some rule.plain else none).getD (.step 1) = rule.plain := by
  cases rule <;> rfl

/-- The phrases about the time of day tell clauses, and these say of the units of the
clock what the expression says of them. -/
structure Timing (expression : Expression) (phrases : List Phrase) (said : List Clause) :
    Prop where
  tells : List.Forall₂ Tells phrases said
  nonempty : said ≠ []
  few : said.length ≤ 3
  second : told said .second = (expression.rule .second).plain
  minute : told said .minute = expression.minute.plain
  hour : told said .hour = expression.hour.plain

variable {expression : Expression}

theorem clock_phrase_spec (wellFormed : expression.WellFormed) {hour minute : Nat}
    (hourKnown : expression.hour = .specific hour)
    (minuteKnown : expression.minute = .specific minute) :
    ∃ phrases said, Description.clockPhrase expression.second hour minute =
      Phrase.commaSeparated phrases ∧ Timing expression phrases said := by
  unfold Description.clockPhrase
  split
  case h_1 absent =>
      refine ⟨[_], _, rfl, .cons (clock_tells none) .nil, by simp, by simp, ?_, ?_, ?_⟩
      · simp [told, Clause.rule?, Expression.rule, absent, Rule.plain]
      · simp [told, Clause.rule?, minuteKnown, Rule.plain]
      · simp [told, Clause.rule?, hourKnown, Rule.plain]
  case h_2 second known =>
      refine ⟨[_], _, rfl, .cons (clock_tells (some second)) .nil, by simp, by simp, ?_, ?_, ?_⟩
      · simp [told, Clause.rule?, Expression.rule, known, Rule.plain]
      · simp [told, Clause.rule?, minuteKnown, Rule.plain]
      · simp [told, Clause.rule?, hourKnown, Rule.plain]
  case h_3 rule _ known =>
      have second := mention_tells (by decide) (wellFormed.second rule known)
      refine ⟨[_, _], _, rfl, .cons second (.cons (clock_tells none) .nil), by simp, by simp,
        ?_, ?_, ?_⟩
      · simp [told, Clause.rule?, Expression.rule, known]
      · simp [told, Clause.rule?, minuteKnown, Rule.plain]
      · simp [told, Clause.rule?, hourKnown, Rule.plain]

/-- The seconds are mentioned, or they are zero and the minutes are. -/
theorem leading_spec (expression : Expression) :
    (∃ rule, expression.second = some rule ∧
      Description.leadingPhrase expression.second expression.minute =
        some (mention .second rule)) ∨
      expression.rule .second = .specific 0 ∧
        (Description.leadingPhrase expression.second expression.minute).toList ++
          (Description.unitPhrase Field.minute.name expression.minute).toList =
        [mention .minute expression.minute] := by
  have minutes : (Description.leadingPhrase.everyMinute expression.minute).toList ++
      (Description.unitPhrase Field.minute.name expression.minute).toList =
        [mention .minute expression.minute] := by
    cases expression.minute <;> rfl
  cases known : expression.second with
  | none => exact Or.inr ⟨by simp [Expression.rule, known], minutes⟩
  | some rule =>
      by_cases zero : rule = .specific 0
      · refine Or.inr ⟨by simp [Expression.rule, known, zero], ?_⟩
        rw [Description.leadingPhrase, if_pos zero]
        exact minutes
      · refine Or.inl ⟨rule, rfl, ?_⟩
        rw [Description.leadingPhrase, if_neg zero]
        rfl

theorem joined_phrase_spec (wellFormed : expression.WellFormed) :
    ∃ phrases said, (Description.leadingPhrase expression.second expression.minute).toList ++
      (Description.unitPhrase Field.minute.name expression.minute).toList ++
      (Description.unitPhrase Field.hour.name expression.hour).toList = phrases ∧
      Timing expression phrases said := by
  have hours := unit_phrases_tell (by decide) wellFormed.hour
  rcases leading_spec expression with ⟨rule, known, leading⟩ | ⟨zero, leading⟩
  · have second := mention_tells (by decide) (wellFormed.second rule known)
    have minutes := unit_phrases_tell (by decide) wellFormed.minute
    refine ⟨_, _, ?_, .cons second (List.rel_append minutes hours), by simp, ?_, ?_, ?_, ?_⟩
    · rw [leading]
      rfl
    · unfold unitClauses
      split <;> split <;> simp
    · simp [told, Clause.rule?, Expression.rule, known]
    · simp [told, Clause.rule?, List.findSome?_append, find_unit_clauses, get_plain]
    · simp [told, Clause.rule?, List.findSome?_append, find_unit_clauses, get_plain]
  · have minute := mention_tells (by decide) wellFormed.minute
    refine ⟨_, _, ?_, .cons minute hours, by simp, ?_, ?_, ?_, ?_⟩
    · rw [leading]
      rfl
    · unfold unitClauses
      split <;> simp
    · simp [told, Clause.rule?, find_unit_clauses, zero, Rule.plain]
    · simp [told, Clause.rule?]
    · simp [told, Clause.rule?, find_unit_clauses, get_plain]

theorem time_phrase_spec (wellFormed : expression.WellFormed) :
    ∃ phrases said, Description.timePhrase expression = Phrase.commaSeparated phrases ∧
      Timing expression phrases said := by
  unfold Description.timePhrase
  split
  case h_1 hour minute hourKnown minuteKnown =>
      exact clock_phrase_spec wellFormed hourKnown minuteKnown
  case h_2 =>
      obtain ⟨phrases, said, known, timing⟩ := joined_phrase_spec wellFormed
      exact ⟨phrases, said, congrArg Phrase.commaSeparated known, timing⟩

end Reader

end CronSchedule
