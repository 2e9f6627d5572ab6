import CronSchedule.Proofs.Series.Abreast

/-!
# Second 0 left out and written out

An expression without seconds and the one that writes second 0 in front of it match the
same moments. Only their walks differ: one goes on at the next whole minute, the other a
second later, which at the end of a month is still in the month before. So both series
yield the same, except that the one with six fields may give up a month earlier.
-/

namespace CronSchedule

set_option autoImplicit false

namespace FieldTokens

variable {tokens : FieldTokens} {expression : Expression}

theorem second_eq_none_of_parse (read : tokens.parse = .ok expression)
    (fiveFields : expression.hasSeconds = false) : tokens.second = none := by
  have written := (parse_eq_ok_iff.mp read).1
  rw [fiveFields] at written
  simpa using written

/-- A token in front of those of five fields is that of the seconds. -/
theorem of_text_zero {text : String} (known : ofText text = .ok tokens)
    (fiveFields : tokens.second = none) :
    ofText ("0 " ++ text) = .ok { tokens with second := some "0" } := by
  have front : Text.words ("0 " ++ text).toList = ['0'] :: Text.words text.toList := by
    have solid : ∀ letter ∈ ['0'], Text.isBlank letter = false := by
      intro letter member
      rw [List.mem_singleton.mp member]
      decide
    have blank : Text.isBlank ' ' = true := by decide
    rw [String.toList_append]
    exact Text.words_append_blank (List.cons_ne_nil _ _) solid blank text.toList
  rw [ofText] at known
  rw [ofText, front, List.map_cons]
  generalize (Text.words text.toList).map String.ofList = words at known
  unfold ofList at known
  split at known
  case h_1 =>
      cases known
      rfl
  case h_2 =>
      cases known
      cases fiveFields
  case h_3 => cases known

end FieldTokens

namespace Expression

variable {text : String} {expression : Expression} {moment passed : Moment}

/-- The expression with second 0 written out. -/
def timed (expression : Expression) : Expression :=
  { expression with second := some (.specific 0) }

theorem parse_zero (accepted : parse text = .ok expression)
    (fiveFields : expression.hasSeconds = false) :
    parse ("0 " ++ text) = .ok expression.timed := by
  obtain ⟨tokens, known, read⟩ := bind_eq_ok_iff.mp accepted
  have noSecond := FieldTokens.second_eq_none_of_parse read fiveFields
  apply bind_eq_ok_iff.mpr
  refine ⟨_, FieldTokens.of_text_zero known noSecond, ?_⟩
  have each := (FieldTokens.parse_eq_ok_iff.mp read).2
  have zero : Rule.parse .second "0" = .ok (.specific 0) := by decide
  apply FieldTokens.parse_eq_ok_iff.mpr
  refine ⟨rfl, ?_⟩
  simp only [FieldTokens.toList, noSecond, Option.toList, List.map_nil, List.nil_append,
    List.map_cons, List.cons_append, List.forall_mem_cons, List.not_mem_nil, false_implies,
    implies_true, and_true] at each ⊢
  exact ⟨zero, each⟩

theorem timed_matches_iff (fiveFields : expression.hasSeconds = false) (moment : Moment) :
    expression.timed.Matches moment ↔ expression.Matches moment := by
  have absent : expression.second = none := Option.isNone_iff_eq_none.mp (by
    rw [← Option.not_isSome, ← hasSeconds, fiveFields]
    rfl)
  have zero : (Rule.specific 0).values .second = .ok (ValueSet.singleton 0) := by decide
  simp only [Matches, SelectsDay, SelectsSecond, timed, absent, Rule.selects_iff zero,
    ValueSet.mem_singleton]

theorem second_count_timed_onward (expression : Expression) (moment : Moment) :
    (expression.timed.onward moment).secondCount = moment.secondCount + 1 := by
  have written : expression.timed.hasSeconds = true := rfl
  rw [onward, if_pos written, Moment.second_count_of_second_count]

theorem second_count_onward (fiveFields : expression.hasSeconds = false) (moment : Moment) :
    (expression.onward moment).secondCount = (moment.secondCount / 60 + 1) * 60 := by
  have unwritten : ¬expression.hasSeconds = true := Bool.eq_false_iff.mp fiveFields
  rw [onward, if_neg unwritten, Moment.second_count_of_second_count]

theorem timed_onward_le (fiveFields : expression.hasSeconds = false) (moment : Moment) :
    expression.timed.onward moment ≤ expression.onward moment := by
  apply (Moment.le_iff_second_count_le (expression.timed.valid_onward moment)
    (expression.valid_onward moment)).mpr
  rw [second_count_timed_onward, second_count_onward fiveFields]
  omega

/-- The next whole minute is at most a month ahead of the next second. -/
theorem month_index_onward_le (fiveFields : expression.hasSeconds = false)
    (representable : moment.Representable) :
    (expression.onward moment).monthIndex ≤ (expression.timed.onward moment).monthIndex + 1 := by
  have years := Moment.years_of_on_way (expression.timed.on_way_onward representable)
  apply Moment.month_index_until_midnight (expression.timed.valid_onward moment)
    (expression.valid_onward moment)
  · exact Int.lt_of_le_of_lt years.2 (by decide)
  · rw [second_count_timed_onward, second_count_onward fiveFields]
    omega

theorem timed_outreached (fiveFields : expression.hasSeconds = false) (horizon : Nat) :
    expression.timed.Outreached expression horizon horizon := by
  constructor
  case alike =>
      intro moment _
      exact timed_matches_iff fiveFields moment
  case further =>
      intro moment _
      have months := Moment.month_index_mono (expression.timed.valid_onward moment)
        (expression.valid_onward moment) (timed_onward_le fiveFields moment)
      exact Int.add_le_add_right months _

end Expression

namespace Series

/-- In some round the first series searches from the month before that in which the second
one searches, and finds nothing. What the second one finds lies a whole horizon ahead. -/
def FallsShortOf (series other : Series) (horizon : UInt32) : Prop :=
  ∃ (round : Nat) (start otherStart found : Moment),
    series.SearchesFrom round start ∧ other.SearchesFrom round otherStart ∧
    series.schedule.search start horizon = .ok none ∧
    other.schedule.search otherStart horizon = .ok (some found) ∧
    start.monthIndex + 1 = otherStart.monthIndex ∧
    found.monthIndex = otherStart.monthIndex + horizon.toNat

theorem Abreast.falls_short {expression : Expression} {horizon : UInt32} {series other : Series}
    (abreast : Abreast expression.timed expression horizon horizon series other)
    (fiveFields : expression.hasSeconds = false)
    (outlasted : Outlasted expression.timed expression series other) :
    series.FallsShortOf other horizon := by
  obtain ⟨round, passed, found, representable, searches, otherSearches, nothing, hit⟩ := outlasted
  rw [abreast.horizon] at nothing
  rw [abreast.otherHorizon] at hit
  refine ⟨round, _, _, found, searches, otherSearches, nothing, hit, ?_⟩
  obtain ⟨_, ended, finds⟩ := finds_of_search abreast.sound.represents
    (expression.timed.on_way_onward representable) nothing
  cases ended
  obtain ⟨_, reached, otherFinds⟩ := finds_of_search abreast.otherSound.represents
    (expression.on_way_onward representable) hit
  cases reached
  obtain ⟨least, inReach⟩ := (Schedule.finds_some_iff abreast.otherSound.represents).mp otherFinds
  rw [← abreast.outreached.matches_from representable.1] at least
  have beyond := (Schedule.finds_none_iff abreast.sound.represents).mp finds found least.1
  have months := Expression.month_index_onward_le fiveFields representable
  omega

end Series

namespace Expression

variable {text : String} {expression : Expression}

/-- With second 0 written in front, a text of five fields yields the beginning of what it
yields alone. It yields less only when it ends with a search that begins a month earlier,
and the match that it misses is a whole horizon ahead of where the other search begins. -/
theorem five_fields_outlast_six (accepted : parse text = .ok expression)
    (fiveFields : expression.hasSeconds = false) (zone : Zone) {origin : Instant}
    (inSpan : InSpan (zone.localCount origin)) (horizon : UInt32) (count : Nat) :
    ∃ timed six five short sixRest long fiveRest, parse ("0 " ++ text) = .ok timed ∧
      timed.series zone origin = .ok six ∧ expression.series zone origin = .ok five ∧
      (six.withHorizon horizon).take count = .ok (short, sixRest) ∧
      (five.withHorizon horizon).take count = .ok (long, fiveRest) ∧ short <+: long ∧
      (short.length < long.length →
        ∃ sixLast fiveLast,
          (six.withHorizon horizon).take short.length = .ok (short, sixLast) ∧
          (five.withHorizon horizon).take short.length = .ok (short, fiveLast) ∧
          sixLast.next = .ok (none, sixRest) ∧ sixLast.FallsShortOf fiveLast horizon) := by
  have zeroAccepted := parse_zero accepted fiveFields
  obtain ⟨six, five, sixMade, fiveMade, abreast⟩ := Series.abreast_of_accepted zeroAccepted
    accepted inSpan (timed_outreached fiveFields horizon.toNat)
  obtain ⟨short, sixRest, long, fiveRest, taken, otherTaken, initial, shorter⟩ :=
    abreast.take count
  refine ⟨expression.timed, six, five, short, sixRest, long, fiveRest, zeroAccepted, sixMade,
    fiveMade, taken, otherTaken, initial, ?_⟩
  intro fewer
  obtain ⟨sixLast, fiveLast, sixRan, fiveRan, ended, still, outlasted⟩ := shorter fewer
  exact ⟨sixLast, fiveLast, sixRan, fiveRan, ended, still.falls_short fiveFields outlasted⟩

/-- Midnight of the first of February, asked for in the last minute of December with a
horizon of one month. The second after that minute is still in December, the next whole
minute is in January. -/
theorem five_fields_outlast_six_at_year_end :
    let text := "0 0 1 2 *"
    let expression : Expression :=
      ⟨none, .specific 0, .specific 0, .specific 1, .specific 2, .any⟩
    let origin : Instant := .ofUniversal ⟨⟨2023, 12, 31⟩, ⟨23, 59, 0⟩⟩ 0
    let next : Instant := .ofUniversal ⟨⟨2024, 2, 1⟩, ⟨0, 0, 0⟩⟩ 0
    parse text = .ok expression ∧ expression.hasSeconds = false ∧
      InSpan (Zone.utc.localCount origin) ∧
      ∃ timed six five sixRest fiveRest, parse ("0 " ++ text) = .ok timed ∧
        timed.series .utc origin = .ok six ∧ expression.series .utc origin = .ok five ∧
        (six.withHorizon 1).take 1 = .ok ([], sixRest) ∧
        (five.withHorizon 1).take 1 = .ok ([next], fiveRest) ∧
        (six.withHorizon 1).next = .ok (none, sixRest) ∧
        (six.withHorizon 1).FallsShortOf (five.withHorizon 1) 1 := by
  intro text expression origin next
  have accepted : parse text = .ok expression := by decide
  have fiveFields : expression.hasSeconds = false := rfl
  have inSpan : InSpan (Zone.utc.localCount origin) := by decide
  let schedule : Schedule := ⟨false, .singleton 0, .singleton 0, .singleton 0,
    some (.singleton 1), .singleton 2, none⟩
  let bySecond : Schedule := { schedule with bySecond := true }
  let start : Moment := ⟨⟨2023, 12, 31⟩, ⟨23, 59, 1⟩⟩
  let minute : Moment := ⟨⟨2024, 1, 1⟩, ⟨0, 0, 0⟩⟩
  let found : Moment := ⟨⟨2024, 2, 1⟩, ⟨0, 0, 0⟩⟩
  let six : Series := ⟨bySecond, .utc, Series.defaultHorizon, start, origin, some start, origin⟩
  let five : Series := ⟨schedule, .utc, Series.defaultHorizon, minute, origin, some minute, origin⟩
  have sixMade : expression.timed.series .utc origin = .ok six :=
    series_of_step (by decide) inSpan (by decide)
  have fiveMade : expression.series .utc origin = .ok five :=
    series_of_step (by decide) inSpan (by decide)
  have fiveFebruary : schedule.probe minute = .ok (.miss found) := by decide
  have nothing : bySecond.search start 1 = .ok none := by
    rw [Schedule.search, Schedule.search_up_to_misses [minute, found] (by decide)]
    exact Schedule.search_up_to_beyond (by decide)
  have hit : schedule.search minute 1 = .ok (some found) := by
    rw [Schedule.search, Schedule.search_up_to_miss (by decide) fiveFebruary]
    exact Schedule.search_up_to_hit (by decide) (by decide)
  have resolved : Zone.utc.resolve origin found = some next := by decide
  have ended : (six.withHorizon 1).next = .ok (none, (six.withHorizon 1).halted) :=
    Series.next_ends rfl nothing
  have yielded : (five.withHorizon 1).next = .ok (some next,
      (five.withHorizon 1).resumed next ⟨⟨2024, 2, 1⟩, ⟨0, 1, 0⟩⟩) :=
    Series.next_yields rfl hit (by decide) rfl resolved
  obtain ⟨timed, _, _, short, sixRest, long, fiveRest, read, otherSix, otherFive, taken, fiveTaken,
    _, shorter⟩ := five_fields_outlast_six accepted fiveFields .utc inSpan 1 1
  have zeroAccepted := parse_zero accepted fiveFields
  rw [zeroAccepted] at read
  cases read
  rw [sixMade] at otherSix
  cases otherSix
  rw [fiveMade] at otherFive
  cases otherFive
  rw [Series.take_ends ended 0] at taken
  cases taken
  rw [Series.take_continues yielded rfl] at fiveTaken
  cases fiveTaken
  obtain ⟨_, _, sixBegun, fiveBegun, sixEnded, fallsShort⟩ := shorter (by decide)
  cases sixBegun
  cases fiveBegun
  exact ⟨accepted, fiveFields, inSpan, expression.timed, six, five, _, _, zeroAccepted, sixMade,
    fiveMade, Series.take_ends ended 0, Series.take_continues yielded rfl, sixEnded, fallsShort⟩

end Expression

end CronSchedule
