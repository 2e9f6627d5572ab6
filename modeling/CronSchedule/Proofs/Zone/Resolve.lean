import CronSchedule.Proofs.Calendar.Timeline
import Mathlib.Data.Int.Order.Basic
import Mathlib.Order.Basic

/-!
# Instants of a local moment

A local moment may be shown at several instants, or at none. A lookup tells the earliest
and the latest of them. Resolution takes the earliest if it comes after the floor, and
otherwise the latest if that does.
-/

namespace CronSchedule

set_option autoImplicit false

namespace Instant

instance : LinearOrder Instant where
  le_refl instant := by
    rw [le_iff, lt_iff]
    omega
  le_trans first second third left right := by
    simp only [le_iff, lt_iff] at left right ⊢
    omega
  le_antisymm first second left right := by
    cases first
    cases second
    simp only [le_iff, lt_iff, Instant.mk.injEq] at left right ⊢
    omega
  le_total first second := by
    simp only [le_iff, lt_iff]
    omega
  lt_iff_le_not_ge first second := by
    simp only [le_iff, lt_iff]
    omega
  toDecidableLE := inferInstance
  toDecidableEq := inferInstance
  toDecidableLT := inferInstance

theorem le_iff_seconds_le {first second : Instant} (firstWhole : first.nanoseconds = 0)
    (secondWhole : second.nanoseconds = 0) : first ≤ second ↔ first.seconds ≤ second.seconds := by
  rw [le_iff, lt_iff]
  omega

theorem eq_of_seconds_eq {first second : Instant} (firstWhole : first.nanoseconds = 0)
    (secondWhole : second.nanoseconds = 0) (same : first.seconds = second.seconds) :
    first = second := by
  cases first
  cases second
  simp only at firstWhole secondWhole same
  rw [firstWhole, secondWhole, same]

end Instant

namespace Zone

/-- The local clock begins to show the moment at the instant. -/
def Shows (zone : Zone) (instant : Instant) (moment : Moment) : Prop :=
  instant.nanoseconds = 0 ∧ InSpan instant.seconds ∧ zone.localMoment instant = moment

def Earliest (zone : Zone) (moment : Moment) (instant : Instant) : Prop :=
  zone.Shows instant moment ∧ ∀ other, zone.Shows other moment → instant ≤ other

def Latest (zone : Zone) (moment : Moment) (instant : Instant) : Prop :=
  zone.Shows instant moment ∧ ∀ other, zone.Shows other moment → other ≤ instant

theorem Earliest.unique {zone : Zone} {moment : Moment} {first second : Instant}
    (earliest : zone.Earliest moment first) (other : zone.Earliest moment second) :
    first = second :=
  le_antisymm (earliest.2 second other.1) (other.2 first earliest.1)

/-- The instant that a walk yields at a moment when the previous one was `floor`. -/
def Emits (zone : Zone) (floor : Instant) (moment : Moment) (instant : Instant) : Prop :=
  floor < instant ∧
    (zone.Earliest moment instant ∨
      zone.Latest moment instant ∧ ∀ earliest, zone.Earliest moment earliest → ¬floor < earliest)

variable {zone : Zone} {floor instant : Instant} {moment : Moment}

theorem offset_at_mem (zone : Zone) (instant : Instant) : zone.offsetAt instant ∈ zone.offsets := by
  have general : ∀ (transitions : List (Instant × Int)) (initial : Int),
      transitions.foldl
        (fun current transition => if transition.1 ≤ instant then transition.2 else current)
        initial ∈ initial :: transitions.map Prod.snd := by
    intro transitions
    induction transitions with
    | nil => simp
    | cons first later induction =>
        intro initial
        rw [List.foldl_cons, List.map_cons]
        split
        case isTrue => exact List.mem_cons_of_mem initial (induction first.2)
        case isFalse =>
            rcases List.mem_cons.mp (induction initial) with same | member
            · rw [same]
              exact List.mem_cons_self
            · exact List.mem_cons_of_mem _ (List.mem_cons_of_mem _ member)
  exact general zone.transitions zone.initial

theorem local_moment_eq_iff (valid : moment.Valid) :
    zone.localMoment instant = moment ↔ zone.localCount instant = moment.secondCount := by
  constructor
  · intro same
    rw [← same, localMoment, Moment.second_count_of_second_count]
  · intro same
    rw [localMoment, same, Moment.of_second_count_second_count valid]

theorem mem_candidates (valid : moment.Valid) (seconds : Int) :
    seconds ∈ zone.candidates moment ↔ zone.Shows ⟨seconds, 0⟩ moment := by
  simp only [candidates, List.mem_filter, List.mem_map, decide_eq_true_eq, Shows,
    local_moment_eq_iff valid, true_and]
  constructor
  · exact And.right
  · intro shown
    refine ⟨⟨zone.offsetAt ⟨seconds, 0⟩, offset_at_mem zone _, ?_⟩, shown⟩
    have count := shown.2
    simp only [localCount] at count
    omega

theorem exists_candidate (valid : moment.Valid) (shown : zone.Shows instant moment) :
    ∃ seconds ∈ zone.candidates moment, instant = ⟨seconds, 0⟩ := by
  obtain ⟨seconds, nanoseconds⟩ := instant
  obtain rfl : nanoseconds = 0 := shown.1
  exact ⟨seconds, (mem_candidates valid seconds).mpr shown, rfl⟩

theorem forall_shows_iff (valid : moment.Valid) (property : Instant → Prop) :
    (∀ other, zone.Shows other moment → property other) ↔
      ∀ seconds ∈ zone.candidates moment, property ⟨seconds, 0⟩ := by
  constructor
  · intro holds seconds member
    exact holds _ ((mem_candidates valid seconds).mp member)
  · intro holds other shown
    obtain ⟨seconds, member, rfl⟩ := exists_candidate valid shown
    exact holds seconds member

theorem least_candidate_iff (valid : moment.Valid) (seconds : Int) :
    (zone.candidates moment).min? = some seconds ↔ zone.Earliest moment ⟨seconds, 0⟩ := by
  rw [List.min?_eq_some_iff, mem_candidates valid, Earliest, forall_shows_iff valid]
  simp only [Instant.le_iff_seconds_le]

theorem greatest_candidate_iff (valid : moment.Valid) (seconds : Int) :
    (zone.candidates moment).max? = some seconds ↔ zone.Latest moment ⟨seconds, 0⟩ := by
  rw [List.max?_eq_some_iff, mem_candidates valid, Latest, forall_shows_iff valid]
  simp only [Instant.le_iff_seconds_le]

/-- The ends are the bounds themselves, whether these differ or not. -/
theorem Lookup.ends_of_bounds_eq_some_iff (least greatest : Option Int)
    (earliest latest : Instant) :
    (ofBounds least greatest).ends = some (earliest, latest) ↔
      ∃ first last, least = some first ∧ greatest = some last ∧ earliest = ⟨first, 0⟩ ∧
        latest = ⟨last, 0⟩ := by
  cases least with
  | none => simp only [ofBounds, ends, reduceCtorEq, false_and, exists_false]
  | some first =>
      cases greatest with
      | none => simp only [ofBounds, ends, reduceCtorEq, false_and, and_false, exists_false]
      | some last =>
          have told : (ofBounds (some first) (some last)).ends =
              some (⟨first, 0⟩, ⟨last, 0⟩) := by
            rw [ofBounds]
            split
            case isTrue same => rw [ends, same]
            case isFalse => rfl
          rw [told]
          constructor
          · rintro ⟨⟩
            exact ⟨first, last, rfl, rfl, rfl, rfl⟩
          · rintro ⟨_, _, ⟨⟩, ⟨⟩, rfl, rfl⟩
            rfl

theorem Lookup.after_eq_some_iff (lookup : Lookup) :
    lookup.after floor = some instant ↔
      ∃ earliest latest, lookup.ends = some (earliest, latest) ∧
        (floor < earliest ∧ instant = earliest ∨
          ¬floor < earliest ∧ floor < latest ∧ instant = latest) := by
  rw [after]
  cases lookup.ends with
  | none =>
      constructor
      · rintro ⟨⟩
      · rintro ⟨_, _, ⟨⟩, _⟩
  | some ends =>
      obtain ⟨earliest, latest⟩ := ends
      dsimp only
      constructor
      · intro chosen
        refine ⟨earliest, latest, rfl, ?_⟩
        split at chosen
        case isTrue early => exact Or.inl ⟨early, (Option.some.inj chosen).symm⟩
        case isFalse passed =>
            split at chosen
            case isTrue late => exact Or.inr ⟨passed, late, (Option.some.inj chosen).symm⟩
            case isFalse beyond => exact absurd chosen (Option.some_ne_none instant).symm
      · rintro ⟨_, _, ⟨⟩, ⟨early, rfl⟩ | ⟨passed, late, rfl⟩⟩
        · exact if_pos early
        · rw [if_neg passed, if_pos late]

/-- A lookup with ends tells the earliest and the latest of the instants that show the moment. -/
theorem lookup_ends_eq_some_iff (valid : moment.Valid) (earliest latest : Instant) :
    (zone.lookup moment).ends = some (earliest, latest) ↔
      zone.Earliest moment earliest ∧ zone.Latest moment latest := by
  rw [lookup, Lookup.ends_of_bounds_eq_some_iff]
  constructor
  · rintro ⟨first, last, least, greatest, rfl, rfl⟩
    exact ⟨(least_candidate_iff valid first).mp least,
      (greatest_candidate_iff valid last).mp greatest⟩
  · rintro ⟨isEarliest, isLatest⟩
    obtain ⟨first, _, rfl⟩ := exists_candidate valid isEarliest.1
    obtain ⟨last, _, rfl⟩ := exists_candidate valid isLatest.1
    exact ⟨first, last, (least_candidate_iff valid first).mpr isEarliest,
      (greatest_candidate_iff valid last).mpr isLatest, rfl, rfl⟩

/-- A moment that is shown at some instant is shown at an earliest and at a latest one. -/
theorem exists_ends (valid : moment.Valid) (shown : zone.Shows instant moment) :
    ∃ earliest latest, zone.Earliest moment earliest ∧ zone.Latest moment latest := by
  obtain ⟨seconds, member, _⟩ := exists_candidate valid shown
  have listed : zone.candidates moment ≠ [] := List.ne_nil_of_mem member
  obtain ⟨first, least⟩ := Option.isSome_iff_exists.mp (List.isSome_min?_of_ne_nil listed)
  obtain ⟨last, greatest⟩ := Option.isSome_iff_exists.mp (List.isSome_max?_of_ne_nil listed)
  exact ⟨⟨first, 0⟩, ⟨last, 0⟩, (least_candidate_iff valid first).mp least,
    (greatest_candidate_iff valid last).mp greatest⟩

theorem resolve_eq_some_iff (valid : moment.Valid) :
    zone.resolve floor moment = some instant ↔ zone.Emits floor moment instant := by
  rw [resolve, Lookup.after_eq_some_iff]
  constructor
  · rintro ⟨earliest, latest, known, ⟨later, rfl⟩ | ⟨passed, later, rfl⟩⟩
    · obtain ⟨isEarliest, _⟩ := (lookup_ends_eq_some_iff valid _ _).mp known
      exact ⟨later, Or.inl isEarliest⟩
    · obtain ⟨isEarliest, isLatest⟩ := (lookup_ends_eq_some_iff valid _ _).mp known
      refine ⟨later, Or.inr ⟨isLatest, ?_⟩⟩
      intro other otherEarliest
      rw [otherEarliest.unique isEarliest]
      exact passed
  · rintro ⟨later, isEarliest | ⟨isLatest, passed⟩⟩
    · obtain ⟨_, latest, _, isLatest⟩ := exists_ends valid isEarliest.1
      exact ⟨instant, latest, (lookup_ends_eq_some_iff valid _ _).mpr ⟨isEarliest, isLatest⟩,
        Or.inl ⟨later, rfl⟩⟩
    · obtain ⟨earliest, _, isEarliest, _⟩ := exists_ends valid isLatest.1
      exact ⟨earliest, instant, (lookup_ends_eq_some_iff valid _ _).mpr ⟨isEarliest, isLatest⟩,
        Or.inr ⟨passed earliest isEarliest, later, rfl⟩⟩

theorem resolve_eq_none_iff (valid : moment.Valid) :
    zone.resolve floor moment = none ↔ ∀ instant, ¬zone.Emits floor moment instant := by
  simp only [Option.eq_none_iff_forall_ne_some, ne_eq, resolve_eq_some_iff valid]

theorem shows_of_emits (emitted : zone.Emits floor moment instant) :
    zone.Shows instant moment := by
  rcases emitted.2 with earliest | ⟨latest, _⟩
  · exact earliest.1
  · exact latest.1

/-- A moment that is still to be shown after the floor yields an instant. -/
theorem exists_emits_of_shows (valid : moment.Valid) (shown : zone.Shows instant moment)
    (later : floor < instant) : ∃ other, zone.Emits floor moment other := by
  obtain ⟨earliest, latest, isEarliest, isLatest⟩ := exists_ends valid shown
  by_cases early : floor < earliest
  · exact ⟨earliest, early, Or.inl isEarliest⟩
  · have late : floor < latest := lt_of_lt_of_le later (isLatest.2 instant shown)
    refine ⟨latest, late, Or.inr ⟨isLatest, ?_⟩⟩
    intro other otherEarliest
    rw [otherEarliest.unique isEarliest]
    exact early

/-- A walk yields at most one instant at a moment. -/
theorem emits_unique {other : Instant} (valid : moment.Valid)
    (emitted : zone.Emits floor moment instant) (otherEmitted : zone.Emits floor moment other) :
    instant = other := by
  have first := (resolve_eq_some_iff valid).mpr emitted
  have second := (resolve_eq_some_iff valid).mpr otherEmitted
  exact Option.some.inj (first.symm.trans second)

end Zone

end CronSchedule
