import CronSchedule.Proofs.Series.Sound

/-!
# Two series abreast

Two expressions that match the same moments may go on from different places after a
match. No match lies between those places, so the searches of two such series find the
same as long as both reach it. When the second looks at least as far ahead as the first,
what the first yields is a beginning of what the second yields. The first can only end
earlier, in a round whose search falls short of the match that the second one finds.
-/

namespace CronSchedule

set_option autoImplicit false

namespace Expression

variable {first second : Expression} {horizon otherHorizon : Nat} {passed : Moment}

/-- From where the walk goes on, the matches are those after the moment it has passed. -/
theorem matches_from_onward (expression : Expression) (valid : passed.Valid) :
    expression.matchesFrom (expression.onward passed) =
      {moment | moment.Valid ∧ expression.Matches moment ∧ passed < moment} := by
  ext moment
  apply and_congr_right
  intro momentValid
  apply and_congr_right
  intro selected
  exact onward_le_iff valid momentValid selected

/-- The second expression matches what the first one does, and its searches look at
least as far ahead after every moment. -/
structure Outreached (first second : Expression) (horizon otherHorizon : Nat) : Prop where
  alike : ∀ moment : Moment, moment.Valid → (first.Matches moment ↔ second.Matches moment)
  further : ∀ moment : Moment, moment.Representable →
    (first.onward moment).monthIndex + horizon ≤ (second.onward moment).monthIndex + otherHorizon

theorem Outreached.matches_from (outreached : first.Outreached second horizon otherHorizon)
    (valid : passed.Valid) :
    first.matchesFrom (first.onward passed) = second.matchesFrom (second.onward passed) := by
  rw [matches_from_onward first valid, matches_from_onward second valid]
  ext moment
  apply and_congr_right
  intro momentValid
  apply and_congr_left
  intro _
  exact outreached.alike moment momentValid

end Expression

namespace Series

/-- The searches of the next advance of a series begin at these positions, one in each
round. -/
inductive SearchesFrom (series : Series) : Nat → Moment → Prop
  | first {position : Moment} (known : series.position = some position) :
      SearchesFrom series 0 position
  | again {round : Nat} {position found resume : Moment}
      (earlier : SearchesFrom series round position)
      (searched : series.schedule.search position series.horizon = .ok (some found))
      (representable : found.Representable) (stepped : series.schedule.step found = .ok resume)
      (unresolved : series.zone.resolve series.floor found = none) :
      SearchesFrom series (round + 1) resume

/-- Both series have yielded the same last and go on after the same moment, each where its
expression says and with its own horizon. -/
structure Abreast (first second : Expression) (horizon otherHorizon : UInt32)
    (series other : Series) : Prop where
  sound : series.Sound first
  otherSound : other.Sound second
  outreached : first.Outreached second horizon.toNat otherHorizon.toNat
  horizon : series.horizon = horizon
  otherHorizon : other.horizon = otherHorizon
  zone : other.zone = series.zone
  floor : other.floor = series.floor
  positions : ∃ passed : Moment, passed.Representable ∧
    series.position = some (first.onward passed) ∧ other.position = some (second.onward passed)

/-- In some round the search of the first series falls short of the match that the search
of the second one finds, though both begin after the same moment. -/
def Outlasted (first second : Expression) (series other : Series) : Prop :=
  ∃ (round : Nat) (passed found : Moment), passed.Representable ∧
    series.SearchesFrom round (first.onward passed) ∧
    other.SearchesFrom round (second.onward passed) ∧
    series.schedule.search (first.onward passed) series.horizon = .ok none ∧
    other.schedule.search (second.onward passed) other.horizon = .ok (some found)

/-- What advances of the two series come to: the same instant, and where each goes on
after the same match, or the end of the first one, and of the second too unless the first
is outlasted. -/
inductive Together (first second : Expression) (series other : Series) :
    Option (Instant × Moment) → Option (Instant × Moment) → Prop
  | yields {instant : Instant} {found : Moment} (representable : found.Representable) :
      Together first second series other (some (instant, first.onward found))
        (some (instant, second.onward found))
  | ends : Together first second series other none none
  | outlasted {outcome : Option (Instant × Moment)}
      (fallsShort : Outlasted first second series other) :
      Together first second series other none outcome

variable {first second : Expression} {horizon otherHorizon : UInt32} {series other : Series}
  {passed : Moment}

/-- What the search of the first series finds, the search of the second one that begins
after the same moment finds too. -/
theorem Abreast.search_finds {found : Moment}
    (abreast : Abreast first second horizon otherHorizon series other)
    (representable : passed.Representable)
    (searched : series.schedule.search (first.onward passed) series.horizon = .ok (some found)) :
    other.schedule.search (second.onward passed) other.horizon = .ok (some found) := by
  obtain ⟨_, hit, finds⟩ :=
    finds_of_search abreast.sound.represents (first.on_way_onward representable) searched
  cases hit
  obtain ⟨result, otherSearched, otherFinds⟩ :=
    finds_of_search abreast.otherSound.represents (second.on_way_onward representable) rfl
  obtain ⟨least, inReach⟩ := (Schedule.finds_some_iff abreast.sound.represents).mp finds
  rw [abreast.outreached.matches_from representable.1] at least
  have further := abreast.outreached.further passed representable
  rw [← abreast.horizon, ← abreast.otherHorizon] at further
  have reached := (Schedule.finds_some_iff abreast.otherSound.represents).mpr
    ⟨least, Int.le_trans inReach further⟩
  rw [otherSearched, Schedule.finds_unique abreast.otherSound.represents otherFinds reached]

/-- A round in which the search of the first series finds nothing ends the first advance.
The second one ends too, or its search has found a match in the same round. -/
theorem Abreast.together_of_nothing
    (abreast : Abreast first second horizon otherHorizon series other)
    (representable : passed.Representable) {round : Nat}
    (searches : series.SearchesFrom round (first.onward passed))
    (otherSearches : other.SearchesFrom round (second.onward passed))
    (searched : series.schedule.search (first.onward passed) series.horizon = .ok none) :
    ∃ otherOutcome,
      advance other.schedule other.zone other.horizon other.floor (second.onward passed) =
        .ok otherOutcome ∧
      Together first second series other none otherOutcome := by
  have onWay := second.on_way_onward representable
  obtain ⟨otherOutcome, advanced, _⟩ :=
    advance_course abreast.otherSound.represents other.horizon other.floor onWay
  obtain ⟨result, otherSearched, _⟩ := finds_of_search abreast.otherSound.represents onWay rfl
  refine ⟨otherOutcome, advanced, ?_⟩
  cases result with
  | none =>
      rw [advance_eq, otherSearched] at advanced
      cases advanced
      exact Together.ends
  | some found =>
      exact Together.outlasted
        ⟨round, passed, found, representable, searches, otherSearches, searched, otherSearched⟩

/-- Advances that begin after the same moment stay together round by round. -/
theorem Abreast.advance (abreast : Abreast first second horizon otherHorizon series other)
    (representable : passed.Representable) {round : Nat}
    (searches : series.SearchesFrom round (first.onward passed))
    (otherSearches : other.SearchesFrom round (second.onward passed)) :
    ∃ outcome otherOutcome,
      advance series.schedule series.zone series.horizon series.floor (first.onward passed) =
        .ok outcome ∧
      advance other.schedule other.zone other.horizon other.floor (second.onward passed) =
        .ok otherOutcome ∧
      Together first second series other outcome otherOutcome := by
  generalize start : first.onward passed = position at searches ⊢
  -- Nothing happens to the first series that does not happen to the second one in the same
  -- round, so the rounds of the first one lead the induction.
  fun_induction Series.advance series.schedule series.zone series.horizon series.floor position
    generalizing passed round with
  | case1 position fault searched =>
      have onWay := first.on_way_onward representable
      rw [start] at onWay
      obtain ⟨result, failed, _⟩ := finds_of_search abreast.sound.represents onWay searched
      cases failed
  | case2 position searched =>
      rw [← start] at searches searched
      obtain ⟨otherOutcome, advanced, together⟩ :=
        abreast.together_of_nothing representable searches otherSearches searched
      exact ⟨none, otherOutcome, rfl, advanced, together⟩
  | case3 position found searched foundRepresentable fault stepped =>
      rw [Schedule.step_spec abreast.sound.represents foundRepresentable] at stepped
      cases stepped
  | case4 position found searched foundRepresentable resume stepped instant resolved =>
      have otherStepped := Schedule.step_spec abreast.otherSound.represents foundRepresentable
      rw [← start] at searched
      have otherSearched := abreast.search_finds representable searched
      rw [← abreast.zone, ← abreast.floor] at resolved
      rw [Schedule.step_spec abreast.sound.represents foundRepresentable] at stepped
      cases stepped
      exact ⟨_, _, rfl, advance_yields otherSearched foundRepresentable otherStepped resolved,
        Together.yields foundRepresentable⟩
  | case5 position found searched foundRepresentable resume stepped unresolved _ induction =>
      have next := searches.again searched foundRepresentable stepped unresolved
      have otherStepped := Schedule.step_spec abreast.otherSound.represents foundRepresentable
      rw [← start] at searched
      have otherSearched := abreast.search_finds representable searched
      rw [← abreast.zone, ← abreast.floor] at unresolved
      have otherNext :=
        otherSearches.again otherSearched foundRepresentable otherStepped unresolved
      rw [Schedule.step_spec abreast.sound.represents foundRepresentable] at stepped
      rw [advance_skips otherSearched foundRepresentable otherStepped unresolved]
      exact induction foundRepresentable otherNext (Except.ok.inj stepped) next
  | case6 position found searched unrepresentable =>
      rw [← start] at searched
      have otherSearched := abreast.search_finds representable searched
      refine ⟨none, none, rfl, ?_, Together.ends⟩
      rw [advance_eq]
      simp only [otherSearched, if_neg unrepresentable]

/-- The next occurrence is the same for both, and leaves them abreast, unless the first
series ends. -/
theorem Abreast.next (abreast : Abreast first second horizon otherHorizon series other) :
    (∃ instant rest otherRest, series.next = .ok (some instant, rest) ∧
      other.next = .ok (some instant, otherRest) ∧
      Abreast first second horizon otherHorizon rest otherRest) ∨
    ∃ rest outcome otherRest, series.next = .ok (none, rest) ∧
      other.next = .ok (outcome, otherRest) ∧
      (outcome = none ∨ Outlasted first second series other) := by
  obtain ⟨passed, representable, known, otherKnown⟩ := abreast.positions
  obtain ⟨_, otherOutcome, advanced, otherAdvanced, together⟩ := abreast.advance representable
    (SearchesFrom.first known) (SearchesFrom.first otherKnown)
  have yielded := next_of_advance known advanced
  have otherYielded := next_of_advance otherKnown otherAdvanced
  cases together with
  | @yields instant found foundRepresentable =>
      refine Or.inl ⟨instant, _, _, yielded, otherYielded, ?_⟩
      exact
        { sound := abreast.sound.of_next yielded
          otherSound := abreast.otherSound.of_next otherYielded
          outreached := abreast.outreached
          horizon := abreast.horizon
          otherHorizon := abreast.otherHorizon
          zone := abreast.zone
          floor := rfl
          positions := ⟨found, foundRepresentable, rfl, rfl⟩ }
  | ends => exact Or.inr ⟨_, none, _, yielded, otherYielded, Or.inl rfl⟩
  | outlasted fallsShort =>
      exact Or.inr ⟨_, (other.after otherOutcome).1, _, yielded, otherYielded, Or.inr fallsShort⟩

/-- What the first series yields is the beginning of what the second one yields, and all
of it unless the first ends right after it because it is outlasted. -/
theorem Abreast.take (abreast : Abreast first second horizon otherHorizon series other)
    (count : Nat) :
    ∃ short rest long otherRest, series.take count = .ok (short, rest) ∧
      other.take count = .ok (long, otherRest) ∧ short <+: long ∧
      (short.length < long.length →
        ∃ last otherLast, series.take short.length = .ok (short, last) ∧
          other.take short.length = .ok (short, otherLast) ∧ last.next = .ok (none, rest) ∧
          Abreast first second horizon otherHorizon last otherLast ∧
          Outlasted first second last otherLast) := by
  induction count generalizing series other with
  | zero =>
      refine ⟨[], series, [], other, rfl, rfl, List.prefix_refl [], ?_⟩
      intro shorter
      exact absurd shorter (Nat.lt_irrefl _)
  | succ count induction =>
      rcases abreast.next with ⟨instant, rest, otherRest, yielded, otherYielded, stays⟩ |
        ⟨rest, outcome, otherRest, ended, otherYielded, reason⟩
      · obtain ⟨short, last, long, otherLast, taken, otherTaken, initial, shorter⟩ :=
          induction stays
        refine ⟨instant :: short, last, instant :: long, otherLast, take_continues yielded taken,
          take_continues otherYielded otherTaken, (List.prefix_cons_inj instant).mpr initial, ?_⟩
        intro fewer
        obtain ⟨before, otherBefore, ran, otherRan, ended, stay, outlasted⟩ :=
          shorter (Nat.lt_of_succ_lt_succ fewer)
        exact ⟨before, otherBefore, take_continues yielded ran,
          take_continues otherYielded otherRan, ended, stay, outlasted⟩
      · cases outcome with
        | none =>
            refine ⟨[], rest, [], otherRest, take_ends ended count,
              take_ends otherYielded count, List.prefix_refl [], ?_⟩
            intro shorter
            exact absurd shorter (Nat.lt_irrefl _)
        | some instant =>
            obtain ⟨later, last, otherTaken, _⟩ :=
              (abreast.otherSound.of_next otherYielded).take count
            have outlasted := reason.resolve_left (Option.some_ne_none instant)
            refine ⟨[], rest, instant :: later, last, take_ends ended count,
              take_continues otherYielded otherTaken, List.nil_prefix, ?_⟩
            intro _
            exact ⟨series, other, rfl, rfl, ended, abreast, outlasted⟩

/-- Series made for the same instant begin abreast. -/
theorem abreast_of_accepted {text otherText : String} {zone : Zone} {origin : Instant}
    (accepted : Expression.parse text = .ok first)
    (otherAccepted : Expression.parse otherText = .ok second)
    (inSpan : InSpan (zone.localCount origin))
    (outreached : first.Outreached second horizon.toNat otherHorizon.toNat) :
    ∃ series other, first.series zone origin = .ok series ∧
      second.series zone origin = .ok other ∧
      Abreast first second horizon otherHorizon (series.withHorizon horizon)
        (other.withHorizon otherHorizon) := by
  obtain ⟨schedule, _, made⟩ := Expression.series_spec accepted inSpan
  obtain ⟨otherSchedule, _, otherMade⟩ := Expression.series_spec otherAccepted inSpan
  obtain ⟨series, known, sound⟩ := Expression.series_sound accepted inSpan
  obtain ⟨other, otherKnown, otherSound⟩ := Expression.series_sound otherAccepted inSpan
  refine ⟨series, other, known, otherKnown, ?_⟩
  rw [made] at known
  rw [otherMade] at otherKnown
  cases known
  cases otherKnown
  exact
    { sound := sound.with_horizon horizon
      otherSound := otherSound.with_horizon otherHorizon
      outreached := outreached
      horizon := rfl
      otherHorizon := rfl
      zone := rfl
      floor := rfl
      positions := ⟨zone.localMoment origin,
        (Moment.representable_of_second_count_iff _).mpr inSpan, rfl, rfl⟩ }

end Series

end CronSchedule
