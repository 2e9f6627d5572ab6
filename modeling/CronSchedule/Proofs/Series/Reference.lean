import CronSchedule.Proofs.Series.Course
import Mathlib.Data.Finset.Sort
import Mathlib.Data.Int.Interval

/-!
# The reference walk

A walk along the list of all matches that remain yields at each one its earliest
instant after the floor, or else its latest, or else nothing. It stops before a
match beyond the horizon of the moment right after the previous match. The
occurrences of a series are those of this walk, in every zone.
-/

namespace CronSchedule

set_option autoImplicit false

namespace Expression

/-- The representable matches from a moment on, in ascending order. -/
structure Lists (expression : Expression) (start : Moment) (times : List Moment) : Prop where
  ascending : times.Pairwise (· < ·)
  mem_iff : ∀ moment : Moment,
    moment ∈ times ↔ moment.Representable ∧ expression.Matches moment ∧ start ≤ moment

/-- The instants that a walk along the listed matches yields, when it has come to
`cursor` and yields nothing up to `floor`. -/
inductive Walk (expression : Expression) (zone : Zone) (horizon : Nat) :
    Instant → Moment → List Moment → List Instant → Prop
  | finished {floor : Instant} {cursor : Moment} : Walk expression zone horizon floor cursor [] []
  | stopped {floor : Instant} {cursor moment : Moment} {later : List Moment}
      (beyond : cursor.monthIndex + horizon < moment.monthIndex) :
      Walk expression zone horizon floor cursor (moment :: later) []
  | yielded {floor instant : Instant} {cursor moment : Moment} {later : List Moment}
      {instants : List Instant} (inReach : moment.monthIndex ≤ cursor.monthIndex + horizon)
      (emitted : zone.Emits floor moment instant)
      (rest : Walk expression zone horizon instant (expression.onward moment) later instants) :
      Walk expression zone horizon floor cursor (moment :: later) (instant :: instants)
  | skipped {floor : Instant} {cursor moment : Moment} {later : List Moment}
      {instants : List Instant} (inReach : moment.monthIndex ≤ cursor.monthIndex + horizon)
      (passed : ∀ instant, ¬zone.Emits floor moment instant)
      (rest : Walk expression zone horizon floor (expression.onward moment) later instants) :
      Walk expression zone horizon floor cursor (moment :: later) instants

variable {expression : Expression} {zone : Zone} {horizon : Nat} {floor : Instant}
  {cursor position found : Moment} {times : List Moment}

theorem exists_lists (expression : Expression) (start : Moment) :
    ∃ times, expression.Lists start times := by
  classical
  have counts : ∃ counts : List Int, counts.Pairwise (· < ·) ∧
      ∀ count, count ∈ counts ↔ InSpan count ∧ expression.Matches (Moment.ofSecondCount count) ∧
        start ≤ Moment.ofSecondCount count := by
    refine ⟨((Finset.Ico (daysBeforeYear Moment.firstYear * 86400)
      (daysBeforeYear (Moment.lastYear + 1) * 86400)).filter fun count =>
        expression.Matches (Moment.ofSecondCount count) ∧
          start ≤ Moment.ofSecondCount count).sort, (Finset.sortedLT_sort _).pairwise, ?_⟩
    intro count
    rw [Finset.mem_sort, Finset.mem_filter, Finset.mem_Ico]
    exact Iff.rfl
  obtain ⟨counts, ascending, members⟩ := counts
  refine ⟨counts.map Moment.ofSecondCount, ?_, ?_⟩
  · apply List.Pairwise.map Moment.ofSecondCount _ ascending
    intro first second before
    rw [Moment.lt_iff_second_count_lt (Moment.valid_of_second_count _)
      (Moment.valid_of_second_count _)]
    simpa only [Moment.second_count_of_second_count] using before
  · intro moment
    rw [List.mem_map]
    constructor
    · rintro ⟨count, member, rfl⟩
      obtain ⟨inSpan, selected, reached⟩ := (members count).mp member
      exact ⟨(Moment.representable_of_second_count_iff count).mpr inSpan, selected, reached⟩
    · rintro ⟨representable, selected, reached⟩
      have same := Moment.of_second_count_second_count representable.1
      refine ⟨moment.secondCount, (members _).mpr ⟨?_, ?_, ?_⟩, same⟩
      · exact (Moment.representable_iff representable.1).mp representable
      · rwa [same]
      · rwa [same]

theorem exists_walk (expression : Expression) (zone : Zone) (horizon : Nat) (floor : Instant)
    (cursor : Moment) (times : List Moment) (valid : ∀ moment ∈ times, moment.Valid) :
    ∃ instants, ∀ other,
      expression.Walk zone horizon floor cursor times other ↔ other = instants := by
  induction times generalizing floor cursor with
  | nil =>
      refine ⟨[], ?_⟩
      intro other
      constructor
      · intro walk
        cases walk
        rfl
      · rintro rfl
        exact Walk.finished
  | cons moment later induction =>
      have laterValid : ∀ other ∈ later, other.Valid :=
        fun other member => valid other (List.mem_cons_of_mem moment member)
      by_cases inReach : moment.monthIndex ≤ cursor.monthIndex + horizon
      · by_cases emits : ∃ instant, zone.Emits floor moment instant
        · obtain ⟨instant, emitted⟩ := emits
          obtain ⟨instants, unique⟩ := induction instant (expression.onward moment) laterValid
          refine ⟨instant :: instants, ?_⟩
          intro other
          constructor
          · intro walk
            cases walk with
            | stopped beyond => omega
            | skipped _ passed _ => exact absurd emitted (passed instant)
            | yielded _ otherEmitted rest =>
                obtain rfl :=
                  Zone.emits_unique (valid moment List.mem_cons_self) otherEmitted emitted
                rw [(unique _).mp rest]
          · rintro rfl
            exact Walk.yielded inReach emitted ((unique instants).mpr rfl)
        · have passed := not_exists.mp emits
          obtain ⟨instants, unique⟩ := induction floor (expression.onward moment) laterValid
          refine ⟨instants, ?_⟩
          intro other
          constructor
          · intro walk
            cases walk with
            | stopped beyond => omega
            | yielded _ emitted _ => exact absurd emitted (passed _)
            | skipped _ _ rest => exact (unique other).mp rest
          · rintro rfl
            exact Walk.skipped inReach passed ((unique other).mpr rfl)
      · refine ⟨[], ?_⟩
        intro other
        constructor
        · intro walk
          cases walk with
          | stopped => rfl
          | yielded within => exact absurd within inReach
          | skipped within => exact absurd within inReach
        · rintro rfl
          exact Walk.stopped (Int.not_le.mp inReach)

/-- The first match heads the list, and those from where the walk goes on follow it. -/
theorem Lists.split (lists : expression.Lists position times)
    (first : expression.FirstFrom position found) :
    ∃ later, times = found :: later ∧ expression.Lists (expression.onward found) later := by
  have member := (lists.mem_iff found).mpr ⟨first.representable, first.selected, first.reached⟩
  obtain ⟨ascending, members⟩ := lists
  cases times with
  | nil => cases member
  | cons head later =>
      obtain ⟨headLeast, laterAscending⟩ := List.pairwise_cons.mp ascending
      obtain ⟨representable, selected, reached⟩ := (members head).mp List.mem_cons_self
      have same : found = head := by
        rcases first.least head representable selected reached with before | same
        · rcases List.mem_cons.mp member with same | after
          · exact same
          · exact absurd (Moment.lt_trans before (headLeast found after)) (Moment.lt_irrefl found)
        · exact same
      rw [← same] at headLeast members ⊢
      refine ⟨later, rfl, laterAscending, ?_⟩
      intro moment
      constructor
      · intro listed
        obtain ⟨momentRepresentable, momentSelected, _⟩ :=
          (members moment).mp (List.mem_cons_of_mem found listed)
        refine ⟨momentRepresentable, momentSelected, ?_⟩
        apply (onward_le_iff first.representable.1 momentRepresentable.1 momentSelected).mpr
        exact headLeast moment listed
      · rintro ⟨momentRepresentable, momentSelected, onwards⟩
        have after := (onward_le_iff first.representable.1 momentRepresentable.1
          momentSelected).mp onwards
        have listed := (members moment).mpr ⟨momentRepresentable, momentSelected,
          Moment.le_trans first.reached (Moment.le_of_lt after)⟩
        rcases List.mem_cons.mp listed with same | listed
        · rw [same] at after
          exact absurd after (Moment.lt_irrefl found)
        · exact listed

/-- What a walk yields agrees with an advance: it has ended, or it yields the same
instant and goes on from the same moment. -/
def Agrees (expression : Expression) (zone : Zone) (horizon : Nat) (instants : List Instant) :
    Option (Instant × Moment) → Prop
  | none => instants = []
  | some (instant, resume) => ∃ later rest, instants = instant :: rest ∧
      expression.Lists resume later ∧ expression.Walk zone horizon instant resume later rest

theorem Walk.of_course {outcome : Option (Instant × Moment)} {instants : List Instant}
    (course : expression.Course zone horizon floor position outcome)
    (lists : expression.Lists position times)
    (walk : expression.Walk zone horizon floor position times instants) :
    expression.Agrees zone horizon instants outcome := by
  induction course generalizing times instants with
  | ends beyond =>
      cases walk with
      | finished => rfl
      | stopped => rfl
      | yielded inReach =>
          obtain ⟨representable, selected, reached⟩ := (lists.mem_iff _).mp List.mem_cons_self
          have out := beyond _ representable selected reached
          omega
      | skipped inReach =>
          obtain ⟨representable, selected, reached⟩ := (lists.mem_iff _).mp List.mem_cons_self
          have out := beyond _ representable selected reached
          omega
  | yields first inReach emitted =>
      obtain ⟨later, rfl, laterLists⟩ := lists.split first
      cases walk with
      | stopped beyond => omega
      | skipped _ passed _ => exact absurd emitted (passed _)
      | yielded _ otherEmitted rest =>
          obtain rfl := Zone.emits_unique first.representable.1 otherEmitted emitted
          exact ⟨later, _, rfl, laterLists, rest⟩
  | skips first inReach passed _ induction =>
      obtain ⟨later, rfl, laterLists⟩ := lists.split first
      cases walk with
      | stopped beyond => omega
      | yielded _ emitted _ => exact absurd emitted (passed _)
      | skipped _ _ rest => exact induction laterLists rest

end Expression

/-- Taking occurrences is taking from what the walk yields. -/
theorem Series.take_of_walk {expression : Expression} (series : Series) {position : Moment}
    {times : List Moment} {instants : List Instant}
    (represents : series.schedule.Represents expression)
    (known : series.position = some position) (onWay : position.OnWay)
    (lists : expression.Lists position times)
    (walk : expression.Walk series.zone series.horizon.toNat series.floor position times instants)
    (count : Nat) : ∃ rest, series.take count = .ok (instants.take count, rest) := by
  induction count generalizing series position times instants with
  | zero => exact ⟨series, rfl⟩
  | succ count induction =>
      obtain ⟨outcome, course, yielded⟩ := next_spec represents known onWay
      have agrees := walk.of_course course lists
      cases outcome with
      | none =>
          obtain rfl : instants = [] := agrees
          rw [List.take_nil]
          exact ⟨series.halted, take_ends yielded count⟩
      | some pair =>
          obtain ⟨instant, resume⟩ := pair
          obtain ⟨later, rest, rfl, laterLists, laterWalk⟩ := agrees
          obtain ⟨last, taken⟩ := induction (series.resumed instant resume) represents rfl
            course.on_way laterLists laterWalk
          rw [List.take_succ_cons]
          exact ⟨last, take_continues yielded taken⟩

namespace Expression

/-- In every zone the occurrences of an accepted expression are the instants that the
reference walk yields. -/
theorem occurrences_eq_walk {text : String} {expression : Expression}
    (accepted : parse text = .ok expression) (zone : Zone) {origin : Instant}
    (inSpan : InSpan (zone.localCount origin)) (horizon : UInt32) :
    ∃ series times instants, expression.series zone origin = .ok series ∧
      expression.Lists (expression.entry zone origin) times ∧
      (∀ other, expression.Walk zone horizon.toNat origin (expression.entry zone origin) times
        other ↔ other = instants) ∧
      ∀ count, ∃ rest,
        (series.withHorizon horizon).take count = .ok (instants.take count, rest) := by
  obtain ⟨schedule, represents, made⟩ := series_spec accepted inSpan
  obtain ⟨times, lists⟩ := exists_lists expression (expression.entry zone origin)
  obtain ⟨instants, unique⟩ := exists_walk expression zone horizon.toNat origin
    (expression.entry zone origin) times
    (fun moment listed => ((lists.mem_iff moment).mp listed).1.1)
  refine ⟨_, times, instants, made, lists, unique, ?_⟩
  intro count
  exact Series.take_of_walk _ represents rfl (on_way_entry inSpan) lists
    ((unique instants).mpr rfl) count

/-- Half hours while clocks are set back from 3:00 to 2:00. The repeated hour fires once,
at the earlier of its two instants. -/
theorem occurrences_eq_walk_over_repeated_hour :
    let expression : Expression := ⟨none, .step 30, .any, .any, .any, .any⟩
    let zone : Zone := ⟨7200, [(⟨63865587600, 0⟩, 3600)]⟩
    let origin : Instant := ⟨63865583400, 0⟩
    let entry : Moment := ⟨⟨2024, 10, 27⟩, ⟨1, 51, 0⟩⟩
    parse "*/30 * * * *" = .ok expression ∧ InSpan (zone.localCount origin) ∧
      expression.entry zone origin = entry ∧
      ∃ series times instants, expression.series zone origin = .ok series ∧
        expression.Lists entry times ∧
        (∀ other, expression.Walk zone 60 origin entry times other ↔ other = instants) ∧
        instants.take 3 = [⟨63865584000, 0⟩, ⟨63865585800, 0⟩, ⟨63865591200, 0⟩] ∧
        ∀ count, ∃ rest,
          (series.withHorizon 60).take count = .ok (instants.take count, rest) := by
  intro expression zone origin entry
  have accepted : parse "*/30 * * * *" = .ok expression := by decide
  have inSpan : InSpan (zone.localCount origin) := by decide
  have entered : expression.entry zone origin = entry := by decide
  let schedule : Schedule := ⟨false, .singleton 0, .stepping 0 59 30, .stepping 0 23 1, none,
    .stepping 1 12 1, none⟩
  have made : Schedule.ofExpression expression = .ok schedule := by decide
  let series : Series :=
    ⟨schedule, zone, Series.defaultHorizon, entry, origin, some entry, origin⟩
  have seriesMade : expression.series zone origin = .ok series :=
    series_of_step made inSpan (by decide)
  let two : Moment := ⟨⟨2024, 10, 27⟩, ⟨2, 0, 0⟩⟩
  let afterTwo : Moment := ⟨⟨2024, 10, 27⟩, ⟨2, 1, 0⟩⟩
  let halfPast : Moment := ⟨⟨2024, 10, 27⟩, ⟨2, 30, 0⟩⟩
  let afterHalfPast : Moment := ⟨⟨2024, 10, 27⟩, ⟨2, 31, 0⟩⟩
  let three : Moment := ⟨⟨2024, 10, 27⟩, ⟨3, 0, 0⟩⟩
  have toTwo : schedule.search entry 60 = .ok (some two) := by
    have missed : schedule.probe entry = .ok (.miss two) := by decide
    rw [Schedule.search, Schedule.search_up_to_miss (by decide) missed]
    exact Schedule.search_up_to_hit (by decide) (by decide)
  have toHalfPast : schedule.search afterTwo 60 = .ok (some halfPast) :=
    Schedule.search_up_to_hit (by decide) (by decide)
  have toThree : schedule.search afterHalfPast 60 = .ok (some three) := by
    have missed : schedule.probe afterHalfPast = .ok (.miss three) := by decide
    rw [Schedule.search, Schedule.search_up_to_miss (by decide) missed]
    exact Schedule.search_up_to_hit (by decide) (by decide)
  let first : Instant := ⟨63865584000, 0⟩
  let second : Instant := ⟨63865585800, 0⟩
  let third : Instant := ⟨63865591200, 0⟩
  have asked : (series.withHorizon 60).next =
      .ok (some first, (series.withHorizon 60).resumed first afterTwo) :=
    Series.next_yields rfl toTwo (by decide) rfl (by decide)
  have again : ((series.withHorizon 60).resumed first afterTwo).next =
      .ok (some second, (series.withHorizon 60).resumed second afterHalfPast) :=
    Series.next_yields rfl toHalfPast (by decide) rfl (by decide)
  have beyond : ((series.withHorizon 60).resumed second afterHalfPast).next =
      .ok (some third, _) :=
    Series.next_yields rfl toThree (by decide) rfl (by decide)
  have counted : (series.withHorizon 60).take 3 = .ok ([first, second, third], _) :=
    Series.take_continues asked (Series.take_continues again (Series.take_continues beyond rfl))
  obtain ⟨_, times, instants, otherMade, lists, walk, taken⟩ :=
    occurrences_eq_walk accepted zone inSpan 60
  rw [seriesMade] at otherMade
  cases otherMade
  obtain ⟨_, firstThree⟩ := taken 3
  rw [counted] at firstThree
  have same : [first, second, third] = instants.take 3 :=
    congrArg Prod.fst (Except.ok.inj firstThree)
  rw [entered] at lists walk
  exact ⟨accepted, inSpan, entered, series, times, instants, seriesMade, lists, walk, same.symm,
    taken⟩

end Expression

end CronSchedule
