import CronSchedule.Proofs.Series.Course

/-!
# Walks that join

An advance takes one course only. From further on, or with a later floor, it takes the
rest of the same course, as long as it does not leave the yielding match behind. From
further back it comes to that course when the stretch in between brings no instant and its
months reach far enough.
-/

namespace CronSchedule

set_option autoImplicit false

namespace Zone

variable {zone : Zone} {floor later instant : Instant} {moment : Moment}

/-- What a moment yields it also yields after any floor that is still before it. -/
theorem emits_of_later_floor (emitted : zone.Emits floor moment instant) (ordered : floor ≤ later)
    (waiting : later < instant) : zone.Emits later moment instant := by
  refine ⟨waiting, emitted.2.imp_right ?_⟩
  rintro ⟨latest, passed⟩
  refine ⟨latest, ?_⟩
  intro earliest isEarliest before
  exact passed earliest isEarliest (lt_of_le_of_lt ordered before)

/-- A moment that yields nothing after a floor yields nothing after a later one. -/
theorem passed_of_later_floor (valid : moment.Valid)
    (passed : ∀ instant, ¬zone.Emits floor moment instant) (ordered : floor ≤ later) :
    ∀ instant, ¬zone.Emits later moment instant := by
  intro instant emitted
  have shown := shows_of_emits emitted
  obtain ⟨other, otherEmitted⟩ :=
    exists_emits_of_shows valid shown (lt_of_le_of_lt ordered emitted.1)
  exact passed other otherEmitted

end Zone

namespace Expression

variable {expression : Expression} {zone : Zone} {horizon : Nat} {floor later instant : Instant}
  {position found resume moment other : Moment}

theorem FirstFrom.unique (first : expression.FirstFrom position found)
    (second : expression.FirstFrom position other) : found = other := by
  have before := first.least other second.representable second.selected second.reached
  have after := second.least found first.representable first.selected first.reached
  exact Moment.le_antisymm before after

/-- An advance has one course only. -/
theorem Course.unique {outcome result : Option (Instant × Moment)}
    (course : expression.Course zone horizon floor position outcome)
    (second : expression.Course zone horizon floor position result) : outcome = result := by
  induction course with
  | ends beyond =>
      cases second with
      | ends => rfl
      | yields first inReach =>
          have away := beyond _ first.representable first.selected first.reached
          omega
      | skips first inReach =>
          have away := beyond _ first.representable first.selected first.reached
          omega
  | yields first inReach emitted =>
      cases second with
      | ends beyond =>
          have away := beyond _ first.representable first.selected first.reached
          omega
      | yields other _ otherEmitted =>
          obtain rfl := first.unique other
          rw [Zone.emits_unique first.representable.1 emitted otherEmitted]
      | skips other _ passed =>
          obtain rfl := first.unique other
          exact absurd emitted (passed _)
  | skips first inReach passed _ induction =>
      cases second with
      | ends beyond =>
          have away := beyond _ first.representable first.selected first.reached
          omega
      | yields other _ emitted =>
          obtain rfl := first.unique other
          exact absurd emitted (passed _)
      | skips other _ _ continued =>
          obtain rfl := first.unique other
          exact induction continued

theorem FirstFrom.of_le (first : expression.FirstFrom position found) (ordered : position ≤ moment)
    (reached : moment ≤ found) : expression.FirstFrom moment found := by
  refine ⟨first.representable, first.selected, reached, ?_⟩
  intro other representable selected onwards
  exact first.least other representable selected (Moment.le_trans ordered onwards)

/-- Where a walk may stand: it comes there from every moment that it leaves behind. -/
structure Stands (expression : Expression) (position : Moment) : Prop where
  valid : position.Valid
  reaches : ∀ passed : Moment, passed.Valid → passed < position →
    expression.onward passed ≤ position

theorem stands_onward (expression : Expression) (moment : Moment) :
    expression.Stands (expression.onward moment) := by
  refine ⟨Moment.valid_of_second_count _, ?_⟩
  intro passed passedValid before
  rw [onward, Moment.lt_iff_second_count_lt passedValid (Moment.valid_of_second_count _),
    Moment.second_count_of_second_count] at before
  rw [onward, onward, Moment.le_iff_second_count_le (Moment.valid_of_second_count _)
    (Moment.valid_of_second_count _), Moment.second_count_of_second_count,
    Moment.second_count_of_second_count]
  split at before
  case isTrue seconds =>
      rw [if_pos seconds, if_pos seconds]
      omega
  case isFalse minutes =>
      rw [if_neg minutes, if_neg minutes]
      omega

/-- A walk that stands further on, but not beyond the match that yields an instant, and
has a later floor before that instant, yields the same instant. -/
theorem Course.stable (course : expression.Course zone horizon floor position
      (some (instant, resume)))
    (valid : position.Valid) (stands : expression.Stands moment) (ordered : position ≤ moment)
    (reached : moment ≤ zone.localMoment instant) (floors : floor ≤ later)
    (waiting : later < instant) :
    expression.Course zone horizon later moment (some (instant, resume)) := by
  generalize same : some (instant, resume) = outcome at course
  induction course generalizing moment with
  | ends => cases same
  | @yields position found _ first inReach emitted =>
      cases same
      rw [(Zone.shows_of_emits emitted).2.2] at reached
      have months := Moment.month_index_mono valid stands.valid ordered
      exact Course.yields (first.of_le ordered reached) (by omega)
        (Zone.emits_of_later_floor emitted floors waiting)
  | @skips position found outcome first inReach passed continued induction =>
      subst same
      have onwardStands := stands_onward expression found
      rcases Moment.lt_or_le found moment with behind | further
      · exact induction onwardStands.valid stands
          (stands.reaches found first.representable.1 behind) reached rfl
      · -- the match is skipped by both walks
        have months := Moment.month_index_mono valid stands.valid ordered
        exact Course.skips (first.of_le ordered further) (by omega)
          (Zone.passed_of_later_floor first.representable.1 passed floors)
          (induction onwardStands.valid onwardStands (Moment.le_refl _)
            continued.local_moment.2.2 rfl)

/-- The matches on the way to what a walk yields bring no instant. -/
theorem Course.passes (course : expression.Course zone horizon floor position
      (some (instant, resume)))
    (representable : other.Representable) (selected : expression.Matches other)
    (reached : position ≤ other) (before : other < zone.localMoment instant) :
    ∀ shown, ¬zone.Emits floor other shown := by
  generalize same : some (instant, resume) = outcome at course
  induction course with
  | ends => cases same
  | yields first _ emitted =>
      cases same
      rw [(Zone.shows_of_emits emitted).2.2] at before
      have least := first.least other representable selected reached
      exact absurd (Moment.lt_of_lt_of_le before least) (Moment.lt_irrefl other)
  | @skips position found outcome first _ passed _ induction =>
      by_cases here : other = found
      · rw [here]
        exact passed
      · exact induction (first.onward_le representable selected reached here) same

/-- What yields an instant finds a first match in reach. -/
theorem Course.exists_first (course : expression.Course zone horizon floor position
      (some (instant, resume))) :
    ∃ found, expression.FirstFrom position found ∧
      found.monthIndex ≤ position.monthIndex + horizon := by
  cases course with
  | yields first inReach _ => exact ⟨_, first, inReach⟩
  | skips first inReach _ _ => exact ⟨_, first, inReach⟩

/-- A walk joins one that stands further on and yields an instant, if no match on the
stretch between them brings an instant and its months reach far enough. -/
theorem Course.joins {outcome : Option (Instant × Moment)}
    (course : expression.Course zone horizon floor position outcome)
    (ahead : expression.Course zone horizon floor moment (some (instant, resume)))
    (valid : position.Valid) (stands : expression.Stands moment) (ordered : position ≤ moment)
    (silent : ∀ other : Moment, other.Representable → expression.Matches other →
      position ≤ other → other < moment → ∀ shown, ¬zone.Emits floor other shown)
    (inReach : moment.monthIndex ≤ position.monthIndex ∨
      (zone.localMoment instant).monthIndex ≤ position.monthIndex + horizon) :
    outcome = some (instant, resume) := by
  induction course with
  | @ends position beyond =>
      obtain ⟨representable, selected, reached⟩ := ahead.local_moment
      have away := beyond _ representable selected (Moment.le_trans ordered reached)
      rcases inReach with months | near
      · obtain ⟨found, first, foundInReach⟩ := ahead.exists_first
        have further := beyond found first.representable first.selected
          (Moment.le_trans ordered first.reached)
        omega
      · omega
  | @yields position found shown first foundInReach emitted =>
      have months := Moment.month_index_mono valid stands.valid ordered
      rcases Moment.lt_or_le found moment with behind | further
      · exact absurd emitted
          (silent found first.representable first.selected first.reached behind shown)
      · have alike : expression.Course zone horizon floor moment
            (some (shown, expression.onward found)) :=
          Course.yields (first.of_le ordered further) (by omega) emitted
        exact alike.unique ahead
  | @skips position found outcome first foundInReach passed continued induction =>
      have months := Moment.month_index_mono valid stands.valid ordered
      rcases Moment.lt_or_le found moment with behind | further
      · have onwards := month_index_le_onward expression first.representable valid first.reached
        have passing :=
          Moment.lt_of_le_of_lt first.reached (expression.lt_onward first.representable.1)
        apply induction (expression.valid_onward found)
          (stands.reaches found first.representable.1 behind)
        · intro other representable selected reached before
          have fromPosition := Moment.le_of_lt (Moment.lt_of_lt_of_le passing reached)
          exact silent other representable selected fromPosition before
        · omega
      · have alike : expression.Course zone horizon floor moment outcome :=
          Course.skips (first.of_le ordered further) (by omega) passed continued
        exact alike.unique ahead

end Expression

end CronSchedule
