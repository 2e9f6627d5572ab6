import CronSchedule.Proofs.Calendar.Cycle
import CronSchedule.Proofs.Schedule.Search

/-!
# Schedules repeat every 400 years

Each look of the search goes the same way any number of cycles later: it finds the same
match of that cycle, or goes on from the same moment of it. So does the whole search,
whose limit moves along. This holds of every schedule, for as long as the looks keep to
the span of years.
-/

namespace CronSchedule

set_option autoImplicit false

def Probe.cyclesLater (cycles : Int) : Probe → Probe
  | .hit found => .hit (found.cyclesLater cycles)
  | .miss resume => .miss (resume.cyclesLater cycles)

namespace Schedule

variable {schedule : Schedule} {moment : Moment} {probe : Probe} {cycles : Int}

theorem matches_day_later {date : Date} {selected : Bool}
    (lower : earliestYear < (date.cyclesLater cycles).year)
    (decided : schedule.matchesDay date = .ok selected) :
    schedule.matchesDay (date.cyclesLater cycles) = .ok selected := by
  have byWeekday : ∀ {weekdays : ValueSet},
      (date.weekday.map fun weekday => decide (weekday ∈ weekdays)) = .ok selected →
        ((date.cyclesLater cycles).weekday.map fun weekday => decide (weekday ∈ weekdays)) =
          .ok selected := by
    intro weekdays chosen
    obtain ⟨weekday, known, same⟩ := map_eq_ok_iff.mp chosen
    exact map_eq_ok_iff.mpr ⟨weekday, Date.weekday_later lower known, same⟩
  unfold matchesDay at decided ⊢
  split at decided
  case h_1 => exact decided
  case h_2 => exact decided
  case h_3 => exact byWeekday decided
  case h_4 days weekdays _ _ =>
      have sameDay : (date.cyclesLater cycles).day = date.day := rfl
      simp only [sameDay]
      split at decided
      case isTrue member =>
          rw [if_pos member]
          exact decided
      case isFalse other =>
          rw [if_neg other]
          exact byWeekday decided

theorem first_day_later {year : Int} {month : Nat} {days : List Nat} {found : Option Nat}
    (lower : earliestYear < year + 400 * cycles)
    (searched : schedule.firstDay? year month days = .ok found) :
    schedule.firstDay? (year + 400 * cycles) month days = .ok found := by
  induction days with
  | nil => exact searched
  | cons day later induction =>
      have carried : ∀ {selected}, schedule.matchesDay ⟨year, month, day⟩ = .ok selected →
          schedule.matchesDay (Date.cyclesLater cycles ⟨year, month, day⟩) = .ok selected :=
        matches_day_later lower
      simp only [Date.cyclesLater] at carried
      simp only [firstDay?] at searched ⊢
      split at searched
      case h_1 => cases searched
      case h_2 decided =>
          rw [carried decided]
          exact searched
      case h_3 decided =>
          rw [carried decided]
          exact induction searched

/-- Where a look goes on after a step, it goes on after the same step of the later cycle. -/
theorem miss_later {outcome other : Except Fault Moment}
    (carried : ∀ next, outcome = .ok next → other = .ok (next.cyclesLater cycles))
    (looked : outcome.map .miss = .ok probe) :
    other.map .miss = .ok (probe.cyclesLater cycles) := by
  obtain ⟨next, stepped, rfl⟩ := map_eq_ok_iff.mp looked
  exact map_eq_ok_iff.mpr ⟨_, carried next stepped, rfl⟩

theorem probe_second_later (room : (moment.cyclesLater cycles).date.HasRoom 0)
    (looked : schedule.probeSecond moment = .ok probe) :
    schedule.probeSecond (moment.cyclesLater cycles) = .ok (probe.cyclesLater cycles) := by
  have sameClock : (moment.cyclesLater cycles).clock = moment.clock := rfl
  unfold probeSecond at looked ⊢
  rw [sameClock]
  split at looked
  case h_1 => exact miss_later (fun _ => Moment.carry_later room) looked
  case h_2 =>
      obtain rfl := Except.ok.inj looked
      rfl

theorem at_minute_later (moment : Moment) (cycles : Int) (minute : Nat) :
    atMinute (moment.cyclesLater cycles) minute = (atMinute moment minute).cyclesLater cycles := by
  unfold atMinute
  rw [apply_ite (Moment.cyclesLater cycles)]
  rfl

theorem probe_minute_later (room : (moment.cyclesLater cycles).date.HasRoom 0)
    (looked : schedule.probeMinute moment = .ok probe) :
    schedule.probeMinute (moment.cyclesLater cycles) = .ok (probe.cyclesLater cycles) := by
  have sameClock : (moment.cyclesLater cycles).clock = moment.clock := rfl
  unfold probeMinute at looked ⊢
  rw [sameClock]
  split at looked
  case h_1 => exact miss_later (fun _ => Moment.carry_later room) looked
  case h_2 minute _ =>
      rw [at_minute_later]
      apply probe_second_later _ looked
      rwa [← at_minute_later, (at_minute_fields _ minute).1]

theorem at_hour_later (moment : Moment) (cycles : Int) (hour : Nat) :
    atHour (moment.cyclesLater cycles) hour = (atHour moment hour).cyclesLater cycles := by
  unfold atHour
  rw [apply_ite (Moment.cyclesLater cycles)]
  rfl

theorem probe_hour_later (room : (moment.cyclesLater cycles).date.HasRoom 0)
    (looked : schedule.probeHour moment = .ok probe) :
    schedule.probeHour (moment.cyclesLater cycles) = .ok (probe.cyclesLater cycles) := by
  have sameClock : (moment.cyclesLater cycles).clock = moment.clock := rfl
  unfold probeHour at looked ⊢
  rw [sameClock]
  split at looked
  case h_1 => exact miss_later (fun _ => Moment.next_day_later room) looked
  case h_2 hour _ =>
      rw [at_hour_later]
      apply probe_minute_later _ looked
      rwa [← at_hour_later, (at_hour_fields _ hour).1]

theorem at_day_later (moment : Moment) (cycles : Int) (day : Nat) :
    atDay (moment.cyclesLater cycles) day = (atDay moment day).cyclesLater cycles := by
  unfold atDay
  rw [apply_ite (Moment.cyclesLater cycles)]
  rfl

theorem probe_day_later (room : (moment.cyclesLater cycles).date.HasRoom 0)
    (looked : schedule.probeDay moment = .ok probe) :
    schedule.probeDay (moment.cyclesLater cycles) = .ok (probe.cyclesLater cycles) := by
  have sameLength : daysInMonth (moment.cyclesLater cycles).date.year
      (moment.cyclesLater cycles).date.month = daysInMonth moment.date.year moment.date.month :=
    days_in_month_later moment.date.year cycles moment.date.month
  unfold probeDay at looked ⊢
  rw [sameLength]
  split at looked
  case h_1 => cases looked
  case h_2 length _ =>
      simp only at looked ⊢
      split at looked
      case h_1 => cases looked
      case h_2 nothing =>
          have same := first_day_later room.1 nothing
          simp only [Moment.cyclesLater, Date.cyclesLater] at same ⊢
          rw [same]
          exact miss_later (fun _ => Moment.next_month_later room) looked
      case h_3 day chosen =>
          have same := first_day_later room.1 chosen
          have entered : schedule.probeHour (atDay (moment.cyclesLater cycles) day) =
              .ok (probe.cyclesLater cycles) := by
            rw [at_day_later]
            apply probe_hour_later _ looked
            rw [← at_day_later, at_day_date]
            exact room
          simp only [Moment.cyclesLater, Date.cyclesLater] at same entered ⊢
          rw [same]
          exact entered

/-- A look goes the same way in the later cycle. -/
theorem probe_later (room : (moment.cyclesLater cycles).date.HasRoom 0)
    (looked : schedule.probe moment = .ok probe) :
    schedule.probe (moment.cyclesLater cycles) = .ok (probe.cyclesLater cycles) := by
  have sameMonth : (moment.cyclesLater cycles).date.month = moment.date.month := rfl
  unfold Schedule.probe at looked ⊢
  rw [sameMonth]
  split at looked
  case isTrue member =>
      rw [if_pos member]
      exact probe_day_later room looked
  case isFalse other =>
      rw [if_neg other]
      exact miss_later (fun _ => Moment.next_month_later room) looked

theorem search_up_to_later {limit : Int} {result : Option Moment}
    (lower : earliestYear < (moment.cyclesLater cycles).date.year)
    (bounded : limit + 4800 * cycles + 1 < (latestYear + 1) * 12)
    (searched : schedule.searchUpTo limit moment = .ok result) :
    schedule.searchUpTo (limit + 4800 * cycles) (moment.cyclesLater cycles) =
      .ok (result.map (Moment.cyclesLater cycles)) := by
  have shifted : ∀ current : Moment,
      (current.cyclesLater cycles).monthIndex = current.monthIndex + 4800 * cycles :=
    fun current => Moment.month_index_later current cycles
  have room : ∀ current : Moment, earliestYear < (current.cyclesLater cycles).date.year →
      current.monthIndex ≤ limit → (current.cyclesLater cycles).date.HasRoom 0 := by
    intro current currentLower inReach
    have index := shifted current
    simp only [Moment.monthIndex] at index inReach
    refine ⟨currentLower, ?_⟩
    omega
  fun_induction schedule.searchUpTo limit moment with
  | case1 => cases searched
  | case2 moment inReach found looked =>
      obtain rfl := Except.ok.inj searched
      have index := shifted moment
      apply search_up_to_hit
      · omega
      · exact probe_later (room moment lower inReach) looked
  | case3 moment inReach resume looked _ induction =>
      have index := shifted moment
      have carried := probe_later (room moment lower inReach) looked
      have years := Moment.year_le_of_le (Moment.le_of_lt (follows_probe looked).1)
      rw [search_up_to_miss (by omega) carried]
      apply induction _ searched
      simp only [Moment.cyclesLater, Date.cyclesLater] at lower ⊢
      omega
  | case4 moment beyond =>
      obtain rfl := Except.ok.inj searched
      have index := shifted moment
      apply search_up_to_beyond
      omega

/-- What a search finds, it finds in the later cycle so many cycles later. -/
theorem search_later {start : Moment} {horizon : UInt32} {result : Option Moment}
    (room : (start.cyclesLater cycles).date.HasRoom horizon.toNat)
    (searched : schedule.search start horizon = .ok result) :
    schedule.search (start.cyclesLater cycles) horizon =
      .ok (result.map (Moment.cyclesLater cycles)) := by
  have index := Moment.month_index_later start cycles
  have limit : (start.cyclesLater cycles).monthIndex + horizon.toNat =
      start.monthIndex + horizon.toNat + 4800 * cycles := by omega
  obtain ⟨lower, bounded⟩ := room
  rw [search, limit]
  apply search_up_to_later lower _ searched
  simp only [Moment.monthIndex] at limit ⊢
  omega

variable {expression : Expression}

/-- No search meets a fault that has room in the span of years. Far from its ends this is
known, and the answer there is carried over to the cycle of the start. -/
theorem search_answers {start : Moment} {horizon : UInt32}
    (represents : schedule.Represents expression) (valid : start.Valid)
    (room : start.date.HasRoom horizon.toNat) :
    ∃ result, schedule.search start horizon = .ok result := by
  obtain ⟨cycles, laterValid, lower, far⟩ := Moment.exists_roomy_cycle valid
  have reach := horizon.toNat_lt
  have bounded : (start.cyclesLater cycles).monthIndex + horizon.toNat < latestYear * 12 := by
    omega
  obtain ⟨result, searched, _⟩ := search_up_to_spec represents bounded laterValid lower
  have back := Moment.cycles_later_neg start cycles
  rw [← back] at room ⊢
  exact ⟨_, search_later room searched⟩

end Schedule

namespace Expression

/-- A search that starts so many cycles of 400 years later, in either direction, finds
what it finds now, so many cycles later, and nothing if it finds nothing now. -/
theorem schedule_repeats_every_cycle {text : String} {expression : Expression}
    (accepted : parse text = .ok expression) :
    ∃ schedule, Schedule.ofExpression expression = .ok schedule ∧
      ∀ (start : Moment) (cycles : Int) (horizon : UInt32), start.Valid →
        start.date.HasRoom horizon.toNat →
        (start.cyclesLater cycles).date.HasRoom horizon.toNat →
        ∃ result, schedule.search start horizon = .ok result ∧
          schedule.search (start.cyclesLater cycles) horizon =
            .ok (result.map (Moment.cyclesLater cycles)) := by
  obtain ⟨schedule, made, represents⟩ :=
    Schedule.of_expression_spec (well_formed_of_parse accepted)
  refine ⟨schedule, made, ?_⟩
  intro start cycles horizon valid room laterRoom
  obtain ⟨result, searched⟩ := Schedule.search_answers represents valid room
  exact ⟨result, searched, Schedule.search_later laterRoom searched⟩

/-- The Monday after 28 February of the year 2100, which is not leap, and of the year -300,
six cycles earlier. A horizon of no month does not reach it. -/
theorem schedule_repeats_every_cycle_before_year_zero :
    let expression : Expression := ⟨none, .specific 0, .specific 0, .any, .any, .specific 1⟩
    let start : Moment := ⟨⟨2100, 2, 28⟩, ⟨12, 0, 0⟩⟩
    let earlier : Moment := ⟨⟨-300, 2, 28⟩, ⟨12, 0, 0⟩⟩
    parse "0 0 * * 1" = .ok expression ∧ start.Valid ∧ start.date.HasRoom 1 ∧
      earlier.date.HasRoom 1 ∧
      ∃ schedule, Schedule.ofExpression expression = .ok schedule ∧
        schedule.search start 0 = .ok none ∧ schedule.search earlier 0 = .ok none ∧
        schedule.search start 1 = .ok (some ⟨⟨2100, 3, 1⟩, Clock.midnight⟩) ∧
        schedule.search earlier 1 = .ok (some ⟨⟨-300, 3, 1⟩, Clock.midnight⟩) := by
  intro expression start earlier
  have accepted : parse "0 0 * * 1" = .ok expression := by decide
  have valid : start.Valid := by decide
  have room : start.date.HasRoom 1 := by decide
  have earlierRoom : earlier.date.HasRoom 1 := by decide
  let schedule : Schedule := ⟨false, .singleton 0, .singleton 0, .singleton 0, none,
    .stepping 1 12 1, some (.singleton 1)⟩
  have made : Schedule.ofExpression expression = .ok schedule := by decide
  have sunday : schedule.probe start = .ok (.miss ⟨⟨2100, 3, 1⟩, Clock.midnight⟩) := by decide
  have nothing : schedule.search start 0 = .ok none := by
    rw [Schedule.search, Schedule.search_up_to_miss (by decide) sunday]
    exact Schedule.search_up_to_beyond (by decide)
  have monday : schedule.search start 1 = .ok (some ⟨⟨2100, 3, 1⟩, Clock.midnight⟩) := by
    rw [Schedule.search, Schedule.search_up_to_miss (by decide) sunday]
    exact Schedule.search_up_to_hit (by decide) (by decide)
  obtain ⟨other, otherMade, repeats⟩ := schedule_repeats_every_cycle accepted
  rw [made] at otherMade
  obtain rfl : schedule = other := Except.ok.inj otherMade
  have sixCycles : start.cyclesLater (-6) = earlier := by decide
  have repeatsEarlier := repeats start (-6)
  rw [sixCycles] at repeatsEarlier
  obtain ⟨missed, searched, missedEarlier⟩ := repeatsEarlier 0 valid (by decide) (by decide)
  rw [nothing] at searched
  rw [← Except.ok.inj searched] at missedEarlier
  obtain ⟨found, searched, foundEarlier⟩ := repeatsEarlier 1 valid room earlierRoom
  rw [monday] at searched
  rw [← Except.ok.inj searched] at foundEarlier
  exact ⟨accepted, valid, room, earlierRoom, schedule, made, nothing, missedEarlier, monday,
    foundEarlier⟩

end Expression

end CronSchedule
