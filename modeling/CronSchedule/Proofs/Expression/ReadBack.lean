import CronSchedule.Proofs.Expression.Clauses

/-!
# Descriptions are read back

What is said of the months and of the days is told apart by the words that it
opens with, so each phrase is read up to its end whatever phrase follows. The
reader therefore finds the normal form of an expression in its description, and
expressions with one description match the same moments.
-/

namespace CronSchedule

set_option autoImplicit false

namespace Reader

/-- What may follow the clauses about the time of day. -/
structure EndsTime (rest : List Token) : Prop where
  noBounds : NoBounds [] rest
  noComma : rest.head? ≠ some .comma

theorem ends_time_every (size : Nat) (unit : String) (rest : List Token) :
    EndsTime (Token.every size unit ++ rest) := by
  have opened : (Token.every size unit ++ rest).head? = some (.word "every") := by
    unfold Token.every
    split <;> rfl
  exact ⟨no_bounds_of_head (by simp [opened]), by simp [opened]⟩

/-- What may follow a phrase about the months. -/
structure EndsMonths (rest : List Token) : Prop where
  stops : Stops rest
  noFrom : rest.head? ≠ some (.word "from")
  unread : month rest = some (.any, rest)

/-- The name of a month of the year. -/
def nameOfMonth (month : Nat) : String := monthNames.getD (month - 1) ""

theorem month_name_spec {number : Nat} (inYear : number ∈ Field.month.canonicalDomain) :
    monthName number = .ok (nameOfMonth number) ∧
      Phrase.Plain (nameOfMonth number) (.word (nameOfMonth number)) ∧
      value? months (.word (nameOfMonth number)) = some number := by
  obtain ⟨lower, upper⟩ := inYear
  change 1 ≤ number at lower
  change number ≤ 12 at upper
  interval_cases number <;> decide

theorem month_names_spec {values : ValueSet}
    (inYear : ∀ value ∈ values, value ∈ Field.month.canonicalDomain) :
    values.toList.mapM monthName = .ok (values.toList.map nameOfMonth) ∧
      Phrase.Reads (Phrase.enumeration (values.toList.map nameOfMonth))
        (Token.enumeration (values.toList.map fun value => .word (nameOfMonth value))) := by
  constructor
  · have named : ∀ {numbers : List Nat},
        (∀ value ∈ numbers, monthName value = .ok (nameOfMonth value)) →
          numbers.mapM monthName = .ok (numbers.map nameOfMonth) := by
      intro numbers known
      induction numbers with
      | nil => rfl
      | cons value numbers induction =>
          rw [List.forall_mem_cons] at known
          rw [List.mapM_cons, known.1, induction known.2]
          rfl
    exact named fun value member => (month_name_spec (inYear value member)).1
  · apply Phrase.reads_enumeration_map
    exact fun value member => (month_name_spec (inYear value member)).2.1

theorem reads_month_bounds {lo hi : Nat} (first : lo ∈ Field.month.canonicalDomain)
    (last : hi ∈ Field.month.canonicalDomain) :
    Phrase.Reads ["from", nameOfMonth lo, "through", nameOfMonth hi]
      [.word "from", .word (nameOfMonth lo), .word "through", .word (nameOfMonth hi)] := by
  obtain ⟨_, loPlain, _⟩ := month_name_spec first
  obtain ⟨_, hiPlain, _⟩ := month_name_spec last
  exact .plain (by decide) (.plain loPlain (.plain (by decide) (.plain hiPlain .nil)))

theorem month_every (size : Nat) (rest : List Token) :
    month (Token.every size "month" ++ rest) = some (step months size rest) := by
  unfold Token.every
  split
  case isTrue single =>
      subst single
      simp [month]
  case isFalse => simp [month]

theorem month_phrase_spec {rule : Rule} (wellFormed : rule.WellFormed .month) :
    ∃ phrase tokens, Description.monthPhrase rule = .ok phrase ∧ phrase.Reads tokens ∧
      ∀ rest, EndsMonths rest →
        month (tokens ++ rest) = some (rule, rest) ∧ EndsTime (tokens ++ rest) := by
  have everyReads : ∀ size, (Description.every size "month").Reads (Token.every size "month") :=
    fun size => Phrase.reads_every size (by decide) (by decide)
  cases rule with
  | any =>
      refine ⟨[], [], rfl, .nil, ?_⟩
      intro rest ends
      exact ⟨ends.unread, no_bounds_of_head ends.noFrom, ends.stops.1⟩
  | specific value =>
      obtain ⟨named, plain, read⟩ := month_name_spec wellFormed
      refine ⟨["in", nameOfMonth value], [.word "in", .word (nameOfMonth value)], ?_,
        .plain (by decide) (.plain plain .nil), ?_⟩
      · rw [Description.monthPhrase, named]
        rfl
      · intro rest ends
        exact ⟨choice_specific read ends.stops, no_bounds_of_head (by simp), by simp⟩
  | list values =>
      obtain ⟨named, reads⟩ := month_names_spec wellFormed.2
      refine ⟨"in" :: _, .word "in" :: _, ?_, .plain (by decide) reads, ?_⟩
      · rw [Description.monthPhrase, named]
        rfl
      · intro rest ends
        have read : ∀ value ∈ values, value? months (.word (nameOfMonth value)) = some value :=
          fun value member => (month_name_spec (wellFormed.2 value member)).2.2
        exact ⟨choice_list wellFormed.1 read rest, no_bounds_of_head (by simp), by simp⟩
  | range lo hi =>
      obtain ⟨loNamed, _, loRead⟩ := month_name_spec wellFormed.1
      obtain ⟨hiNamed, _, hiRead⟩ := month_name_spec wellFormed.2.1
      refine ⟨_, _, ?_, reads_month_bounds wellFormed.1 wellFormed.2.1, ?_⟩
      · rw [Description.monthPhrase, loNamed, hiNamed]
        rfl
      · intro rest ends
        refine ⟨choice_range loRead hiRead rest, ?_, by simp⟩
        -- Bounds that are names of months are no bounds of a clause.
        intro size
        simp [step, value?]
  | step size =>
      refine ⟨_, _, rfl, everyReads size, ?_⟩
      intro rest ends
      refine ⟨?_, ends_time_every size "month" rest⟩
      rw [month_every, no_bounds_of_head ends.noFrom]
  | stepRange lo hi size =>
      obtain ⟨loNamed, _, loRead⟩ := month_name_spec wellFormed.1
      obtain ⟨hiNamed, _, hiRead⟩ := month_name_spec wellFormed.2.1
      have bounds := reads_month_bounds wellFormed.1 wellFormed.2.1
      refine ⟨_, _, ?_, (everyReads size).append bounds, ?_⟩
      · rw [Description.monthPhrase, loNamed, hiNamed]
        rfl
      · intro rest ends
        rw [List.append_assoc]
        refine ⟨?_, ends_time_every size "month" _⟩
        rw [month_every]
        exact congrArg some (step_bounds loRead hiRead size rest)

/-- What may follow a phrase about the days of the month. -/
structure EndsDays (rest : List Token) : Prop where
  months : EndsMonths rest
  unread : dayOfMonth rest = some (.any, rest)

theorem day_of_month_every (size : Nat) (rest : List Token) :
    dayOfMonth (Token.every size "day" ++ rest) = some (dayStep size rest) := by
  unfold Token.every
  split
  case isTrue single =>
      subst single
      simp [dayOfMonth]
  case isFalse => simp [dayOfMonth]

theorem day_step_of_head {rest : List Token} (noFrom : rest.head? ≠ some (.word "from"))
    (size : Nat) : dayStep size rest = (.step size, rest) := by
  unfold dayStep
  split
  · exact absurd rfl noFrom
  · rfl

theorem ends_months_on (rest : List Token) : EndsMonths (.word "on" :: rest) :=
  ⟨by simp [Stops], by simp, by simp [month]⟩

theorem ends_months_every_day (size : Nat) (rest : List Token) :
    EndsMonths (Token.every size "day" ++ rest) := by
  unfold Token.every
  split
  · exact ⟨by simp [Stops], by simp, by simp [month]⟩
  · exact ⟨by simp [Stops], by simp, by simp [month]⟩

theorem day_of_month_phrase_spec {rule : Rule} (wellFormed : rule.WellFormed .dayOfMonth) :
    ∃ tokens, (Description.dayOfMonthPhrase rule).Reads tokens ∧
      ∀ rest, EndsDays rest →
        dayOfMonth (tokens ++ rest) = some (rule, rest) ∧ EndsMonths (tokens ++ rest) := by
  have everyReads : ∀ size, (Description.every size "day").Reads (Token.every size "day") :=
    fun size => Phrase.reads_every size (by decide) (by decide)
  have closing : Phrase.Reads ["of", "the", "month"] [.word "of", .word "the", .word "month"] :=
    .plain (by decide) (.plain (by decide) (.plain (by decide) .nil))
  have closes : ∀ rest, Stops (.word "of" :: .word "the" :: .word "month" :: rest) :=
    fun rest => by simp [Stops]
  have number : ∀ value, value? [] (.number value) = some value := fun _ => rfl
  cases rule with
  | any =>
      refine ⟨[], .nil, ?_⟩
      intro rest ends
      exact ⟨ends.unread, ends.months⟩
  | specific day =>
      refine ⟨.word "on" :: .word "day" :: .number day :: _, .plain (by decide)
        (.plain (by decide) (.plain (Phrase.plain_number_word day) closing)), ?_⟩
      intro rest _
      refine ⟨?_, ends_months_on _⟩
      simp [dayOfMonth, choice_specific (number day) (closes rest)]
  | list days =>
      refine ⟨.word "on" :: .word "days" :: (_ ++ _), .plain (by decide)
        (.plain (by decide) ((reads_numbers days.toList).append closing)), ?_⟩
      intro rest _
      refine ⟨?_, ends_months_on _⟩
      simp [dayOfMonth, choice_list wellFormed.1 (fun value _ => number value)]
  | range lo hi =>
      refine ⟨.word "on" :: .word "days" :: .number lo :: .word "through" :: .number hi :: _,
        .plain (by decide) (.plain (by decide) (.plain (Phrase.plain_number_word lo)
          (.plain (by decide) (.plain (Phrase.plain_number_word hi) closing)))), ?_⟩
      intro rest _
      refine ⟨?_, ends_months_on _⟩
      simp [dayOfMonth, choice_range (number lo) (number hi)]
  | step size =>
      refine ⟨_, everyReads size, ?_⟩
      intro rest ends
      refine ⟨?_, ends_months_every_day size rest⟩
      rw [day_of_month_every, day_step_of_head ends.months.noFrom]
  | stepRange lo hi size =>
      have bounds : Phrase.Reads ["from", "day", Description.numberWord lo, "through",
          Description.numberWord hi, "of", "the", "month"]
          [.word "from", .word "day", .number lo, .word "through", .number hi, .word "of",
            .word "the", .word "month"] :=
        .plain (by decide) (.plain (by decide) (.plain (Phrase.plain_number_word lo)
          (.plain (by decide) (.plain (Phrase.plain_number_word hi) closing))))
      refine ⟨_, (everyReads size).append bounds, ?_⟩
      intro rest _
      rw [List.append_assoc]
      refine ⟨?_, ends_months_every_day size _⟩
      rw [day_of_month_every]
      rfl

theorem weekday_name_spec {number : Nat} (inWeek : number ∈ Field.dayOfWeek.canonicalDomain) :
    Phrase.Plain (weekdayName number) (.word (weekdayName number)) ∧
      value? weekdayNames (.word (weekdayName number)) = some number ∧
      weekdayName number ≠ "day" ∧ weekdayName number ≠ "days" := by
  have upper : number ≤ 6 := inWeek.2
  interval_cases number <;> decide

/-- Weekdays are told from days of the month by their names. -/
theorem ends_days_on {number : Nat} (inWeek : number ∈ Field.dayOfWeek.canonicalDomain)
    (rest : List Token) : EndsDays (.word "on" :: .word (weekdayName number) :: rest) := by
  obtain ⟨_, _, notDay, notDays⟩ := weekday_name_spec inWeek
  exact ⟨ends_months_on _, by simp [dayOfMonth, notDay, notDays]⟩

theorem ends_days_nil : EndsDays [] :=
  ⟨⟨by simp [Stops], by simp, rfl⟩, rfl⟩

theorem ends_days_or (rest : List Token) : EndsDays (.word "or" :: rest) :=
  ⟨⟨by simp [Stops], by simp, by simp [month]⟩, by simp [dayOfMonth]⟩

theorem ends_days_enumeration {weekdays : ValueSet} (nonempty : ∃ weekday, weekday ∈ weekdays)
    (inWeek : ∀ weekday ∈ weekdays, weekday ∈ Field.dayOfWeek.canonicalDomain) :
    EndsDays (.word "on" ::
      Token.enumeration (weekdays.toList.map fun weekday => .word (weekdayName weekday))) := by
  obtain ⟨weekday, member⟩ := nonempty
  obtain ⟨first, others, listed⟩ := List.exists_cons_of_ne_nil (List.ne_nil_of_mem member)
  have firstMember : first ∈ weekdays := by simp [ValueSet.mem_def, listed]
  obtain ⟨tail, opened⟩ := Token.enumeration_cons (.word (weekdayName first))
    (others.map fun weekday => .word (weekdayName weekday))
  rw [listed, List.map_cons, opened]
  exact ends_days_on (inWeek first firstMember) tail

/-- The weekdays are told by their names, behind one word that is always the same. -/
theorem day_of_week_phrase_spec {rule : Rule} (wellFormed : rule.WellFormed .dayOfWeek) :
    ∃ phrase tokens, Description.dayOfWeekPhrase rule = .ok phrase ∧ phrase.Reads tokens ∧
      dayOfWeek tokens = some (rule.spelled, []) ∧ EndsDays tokens ∧
      (phrase ≠ [] → ∃ tail, tokens = .word "on" :: tail) := by
  have stops : Stops [] := by simp [Stops]
  cases rule with
  | any => exact ⟨[], [], rfl, .nil, rfl, ends_days_nil, fun nonempty => absurd rfl nonempty⟩
  | specific weekday =>
      obtain ⟨plain, read, _⟩ := weekday_name_spec wellFormed
      exact ⟨_, [.word "on", .word (weekdayName weekday)], rfl,
        .plain (by decide) (.plain plain .nil), choice_specific read stops,
        ends_days_on wellFormed [], fun _ => ⟨_, rfl⟩⟩
  | range lo hi =>
      obtain ⟨loPlain, loRead, _⟩ := weekday_name_spec wellFormed.1
      obtain ⟨hiPlain, hiRead, _⟩ := weekday_name_spec wellFormed.2.1
      exact ⟨_, [.word "on", .word (weekdayName lo), .word "through", .word (weekdayName hi)], rfl,
        .plain (by decide) (.plain loPlain (.plain (by decide) (.plain hiPlain .nil))),
        choice_range loRead hiRead [], ends_days_on wellFormed.1 _, fun _ => ⟨_, rfl⟩⟩
  | list | step | stepRange =>
      obtain ⟨weekdays, known, inWeek⟩ := Rule.values_spec wellFormed
      obtain ⟨value, selected⟩ := Rule.exists_selects wellFormed
      have nonempty : ∃ weekday, weekday ∈ weekdays :=
        ⟨value, (Rule.selects_iff known value).mp selected⟩
      have named := fun weekday inside => weekday_name_spec (inWeek weekday inside)
      have read := choice_of_values nonempty (fun weekday inside => (named weekday inside).2.1)
        stops
      have reads := Phrase.reads_enumeration_map fun weekday inside => (named weekday inside).1
      refine ⟨"on" :: _, .word "on" :: _, ?_, .plain (by decide) reads, ?_,
        ends_days_enumeration nonempty inWeek, fun _ => ⟨_, rfl⟩⟩
      · simp only [Description.dayOfWeekPhrase, known]
        rfl
      · rw [List.append_nil] at read
        simp only [Rule.spelled, known]
        exact read

theorem day_phrase_spec {dayRule weekdayRule : Rule} (days : dayRule.WellFormed .dayOfMonth)
    (weekdays : weekdayRule.WellFormed .dayOfWeek) :
    ∃ phrase tokens rest, Description.dayOfWeekPhrase weekdayRule = .ok phrase ∧
      (Description.dayPhrase (Description.dayOfMonthPhrase dayRule) phrase).Reads tokens ∧
      dayOfMonth tokens = some (dayRule, rest) ∧
      dayOfWeek rest = some (weekdayRule.spelled, []) ∧ EndsMonths tokens := by
  obtain ⟨dayTokens, dayReads, dayRead⟩ := day_of_month_phrase_spec days
  obtain ⟨phrase, tokens, known, reads, read, ends, opened⟩ := day_of_week_phrase_spec weekdays
  unfold Description.dayPhrase
  -- The connective stands between two phrases only, and either may be left out.
  by_cases both : Description.dayOfMonthPhrase dayRule = [] ∨ phrase = []
  · refine ⟨phrase, dayTokens ++ tokens, tokens, known, ?_, (dayRead tokens ends).1, read,
      (dayRead tokens ends).2⟩
    rw [if_pos both]
    exact dayReads.append reads
  · obtain ⟨tail, rfl⟩ := opened fun empty => both (Or.inr empty)
    have continued := dayRead (.word "or" :: .word "on" :: tail) (ends_days_or _)
    refine ⟨phrase, _, _, known, ?_, continued.1, read, continued.2⟩
    rw [if_neg both]
    exact dayReads.append (.plain (by decide) reads)

/-- The capital letter of the first word is undone. -/
theorem opening_of_sentence {phrase : Phrase} {text : String} {next : Token} {tail : List Token}
    (opens : text = "at" ∨ text = "every") (noComma : next ≠ .comma)
    (reads : phrase.Reads (.word text :: next :: tail)) :
    opening (Token.ofText phrase.capitalized.text) = .word text :: next :: tail := by
  obtain ⟨others, rfl, othersRead⟩ := reads.exists_opening noComma
  rcases opens with rfl | rfl
  · have capital : Phrase.Plain "at".capitalize (.word "At") := by decide
    rw [Phrase.capitalized, (Phrase.Reads.plain capital othersRead).of_text]
    rfl
  · have capital : Phrase.Plain "every".capitalize (.word "Every") := by decide
    rw [Phrase.capitalized, (Phrase.Reads.plain capital othersRead).of_text]
    rfl

end Reader

namespace Expression

variable {expression : Expression}

/-- The description of an accepted expression is read back as its normal form. -/
theorem describe_spec (wellFormed : expression.WellFormed) :
    ∃ sentence, expression.describe = .ok sentence ∧
      Reader.expression (Token.ofText sentence) = some expression.normal := by
  obtain ⟨phrases, said, timeKnown, timing⟩ := Reader.time_phrase_spec wellFormed
  obtain ⟨opening, next, timeTail, opens, noComma, timeReads, timeRead⟩ :=
    Reader.clauses_spec timing.tells timing.nonempty timing.few
  obtain ⟨months, monthTokens, monthsKnown, monthReads, monthRead⟩ :=
    Reader.month_phrase_spec wellFormed.month
  obtain ⟨weekdays, dayTokens, rest, weekdaysKnown, dayReads, dayRead, weekdayRead, ends⟩ :=
    Reader.day_phrase_spec wellFormed.dayOfMonth wellFormed.dayOfWeek
  let phrase := Description.timePhrase expression ++ months ++
    Description.dayPhrase (Description.dayOfMonthPhrase expression.dayOfMonth) weekdays
  have described : expression.describe = .ok phrase.capitalized.text := by
    simp only [describe, monthsKnown, weekdaysKnown]
    rfl
  have reads :
      phrase.Reads (.word opening :: next :: (timeTail ++ (monthTokens ++ dayTokens))) := by
    rw [← timeKnown] at timeReads
    have parts := timeReads.append (monthReads.append dayReads)
    rwa [← List.append_assoc] at parts
  obtain ⟨afterMonths, ends⟩ := monthRead dayTokens ends
  have afterTime := timeRead (monthTokens ++ dayTokens) ends.noBounds ends.noComma
  refine ⟨_, described, ?_⟩
  rw [Reader.expression, Reader.opening_of_sentence opens noComma reads, afterTime]
  simp [afterMonths, dayRead, weekdayRead, timing.second, timing.minute, timing.hour, normal]

example : Reader.expression
    (Token.ofText "At second 5, at minutes 1, 2 and 3 in May on day 7 of the month or on Friday") =
    some ⟨some (.specific 5), .list (ValueSet.ofList [1, 2, 3]), .step 1, .specific 7, .specific 5,
      .specific 5⟩ := by decide

/-- Accepted expressions have descriptions, and two of them that are described in the
same words match the same moments. -/
theorem description_determines_schedule {text otherText : String}
    {expression other : Expression} (accepted : parse text = .ok expression)
    (otherAccepted : parse otherText = .ok other) :
    ∃ sentence otherSentence, expression.describe = .ok sentence ∧
      other.describe = .ok otherSentence ∧
      (sentence = otherSentence → ∀ moment : Moment, moment.Valid →
        (expression.Matches moment ↔ other.Matches moment)) := by
  have wellFormed := well_formed_of_parse accepted
  have otherWellFormed := well_formed_of_parse otherAccepted
  obtain ⟨sentence, described, read⟩ := describe_spec wellFormed
  obtain ⟨otherSentence, otherDescribed, otherRead⟩ := describe_spec otherWellFormed
  refine ⟨sentence, otherSentence, described, otherDescribed, ?_⟩
  intro same moment _
  rw [same, otherRead] at read
  rw [← normal_matches_iff wellFormed, ← normal_matches_iff otherWellFormed, Option.some.inj read]

/-- Seconds that are zero, a step of one and a week that wraps at Sunday go without
saying. -/
theorem description_determines_schedule_of_sundays :
    let expression : Expression := ⟨some (.specific 0), .step 1, .specific 3, .any, .any,
      .stepRange 5 7 2⟩
    let other : Expression := ⟨none, .any, .specific 3, .any, .any,
      .list (ValueSet.ofList [0, 5])⟩
    parse "0 */1 3 * * 5-7/2" = .ok expression ∧ parse "* 3 * * 5,0" = .ok other ∧
      expression.describe = .ok "Every minute, at hour 3 on Sunday and Friday" ∧
      other.describe = .ok "Every minute, at hour 3 on Sunday and Friday" ∧
      ∀ moment : Moment, moment.Valid → (expression.Matches moment ↔ other.Matches moment) := by
  intro expression other
  have accepted : parse "0 */1 3 * * 5-7/2" = .ok expression := by decide
  have otherAccepted : parse "* 3 * * 5,0" = .ok other := by decide
  have described : expression.describe = .ok "Every minute, at hour 3 on Sunday and Friday" := by
    decide
  have otherDescribed : other.describe = .ok "Every minute, at hour 3 on Sunday and Friday" := by
    decide
  obtain ⟨sentence, otherSentence, known, otherKnown, determined⟩ :=
    description_determines_schedule accepted otherAccepted
  have same : sentence = otherSentence := by
    rw [described] at known
    rw [otherDescribed] at otherKnown
    exact (Except.ok.inj known).symm.trans (Except.ok.inj otherKnown)
  exact ⟨accepted, otherAccepted, described, otherDescribed, determined same⟩

end Expression

end CronSchedule
