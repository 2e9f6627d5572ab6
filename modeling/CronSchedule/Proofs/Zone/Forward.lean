import CronSchedule.Proofs.Zone.Resolve

/-!
# Zones whose clocks are never set back

Where the offset never decreases, the local clock shows a later moment at every
later second. So no local moment is shown at two instants, and the order of instants
is that of local moments.
-/

namespace CronSchedule.Zone

set_option autoImplicit false

def NeverSetBack (zone : Zone) : Prop :=
  ∀ first second : Instant, first ≤ second → zone.offsetAt first ≤ zone.offsetAt second

theorem never_set_back_fixed (offset : Int) : (fixed offset).NeverSetBack :=
  fun _ _ _ => Int.le_refl offset

/-- Transitions that each set the clock forward never set it back. -/
theorem never_set_back_of_ascending {zone : Zone} (ascending : zone.offsets.Pairwise (· ≤ ·)) :
    zone.NeverSetBack := by
  intro first second ordered
  have general : ∀ (transitions : List (Instant × Int)) (low high : Int), low ≤ high →
      (high :: transitions.map Prod.snd).Pairwise (· ≤ ·) →
      transitions.foldl
          (fun current transition => if transition.1 ≤ first then transition.2 else current) low ≤
        transitions.foldl
          (fun current transition => if transition.1 ≤ second then transition.2 else current)
          high := by
    intro transitions
    induction transitions with
    | nil => exact fun _ _ below _ => below
    | cons transition later induction =>
        intro low high below rising
        rw [List.map_cons] at rising
        obtain ⟨least, laterRising⟩ := List.pairwise_cons.mp rising
        have offset := least transition.2 List.mem_cons_self
        rw [List.foldl_cons, List.foldl_cons]
        split
        case isTrue reached =>
            rw [if_pos (le_trans reached ordered)]
            exact induction _ _ (Int.le_refl _) laterRising
        case isFalse =>
            split
            case isTrue => exact induction _ _ (Int.le_trans below offset) laterRising
            case isFalse =>
                apply induction low high below
                apply List.pairwise_cons.mpr
                exact ⟨fun other member => least other (List.mem_cons_of_mem _ member),
                  (List.pairwise_cons.mp laterRising).2⟩
  exact general zone.transitions zone.initial zone.initial (Int.le_refl _) ascending

variable {zone : Zone} {first second : Instant}

theorem seconds_lt_of_lt (whole : second.nanoseconds = 0) (before : first < second) :
    first.seconds < second.seconds := by
  rw [Instant.lt_iff] at before
  omega

theorem local_moment_lt (forward : zone.NeverSetBack) (before : first.seconds < second.seconds) :
    zone.localMoment first < zone.localMoment second := by
  have ordered : first ≤ second := by
    rw [Instant.le_iff, Instant.lt_iff]
    omega
  have offsets := forward first second ordered
  rw [localMoment, localMoment, Moment.lt_iff_second_count_lt (Moment.valid_of_second_count _)
    (Moment.valid_of_second_count _), Moment.second_count_of_second_count,
    Moment.second_count_of_second_count]
  simp only [localCount]
  omega

theorem shows_unique (forward : zone.NeverSetBack) {moment : Moment}
    (shown : zone.Shows first moment) (otherShown : zone.Shows second moment) : first = second := by
  have same : zone.localMoment first = zone.localMoment second :=
    shown.2.2.trans otherShown.2.2.symm
  rcases Int.lt_trichotomy first.seconds second.seconds with before | equal | after
  · have moved := local_moment_lt forward before
    rw [same] at moved
    exact absurd moved (Moment.lt_irrefl _)
  · exact Instant.eq_of_seconds_eq shown.1 otherShown.1 equal
  · have moved := local_moment_lt forward after
    rw [same] at moved
    exact absurd moved (Moment.lt_irrefl _)

/-- Every instant after the floor at which the moment is shown is the one that a walk
yields. -/
theorem emits_of_shows (forward : zone.NeverSetBack) {floor instant : Instant} {moment : Moment}
    (shown : zone.Shows instant moment) (later : floor < instant) :
    zone.Emits floor moment instant := by
  refine ⟨later, Or.inl ⟨shown, ?_⟩⟩
  intro other otherShown
  exact le_of_eq (shows_unique forward shown otherShown)

end CronSchedule.Zone
