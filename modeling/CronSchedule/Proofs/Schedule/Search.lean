import CronSchedule.Proofs.Calendar.Steps
import CronSchedule.Proofs.Expression.Matching
import CronSchedule.Proofs.ValueSet
import CronSchedule.Schedule.Search
import Mathlib.Data.List.Chain
import Mathlib.Order.Bounds.Defs

/-!
# The search finds the first match

A look of the search either finds the first match from the moment in view on, or
names a later moment with no match in between. Each level of a look is answered by
the level below it, entered at the first value selected there. A whole search
therefore passes over no match, and it only gives up when the month in view lies
beyond its limit.
-/

namespace CronSchedule.Schedule

set_option autoImplicit false

variable {schedule : Schedule} {expression : Expression} {moment : Moment}

/-- No match is passed over on the way from one moment to another. -/
def Clear (schedule : Schedule) (start finish : Moment) : Prop :=
  ∀ other : Moment, other.Valid → schedule.Matches other → start ≤ other → finish ≤ other

theorem clear_refl : schedule.Clear moment moment := fun _ _ _ ordered => ordered

theorem clear_trans {middle finish : Moment} (first : schedule.Clear moment middle)
    (second : schedule.Clear middle finish) : schedule.Clear moment finish := by
  intro other valid selected ordered
  apply second other valid selected
  exact first other valid selected ordered

/-- What a look may tell of the moment in view. -/
def Answers (schedule : Schedule) (moment : Moment) : Probe → Prop
  | .hit found =>
      found.Valid ∧ schedule.Matches found ∧ found.monthIndex = moment.monthIndex ∧
        schedule.Clear moment found
  | .miss resume => resume.Valid ∧ schedule.Clear moment resume

def Answered (schedule : Schedule) (moment : Moment) (outcome : Except Fault Probe) : Prop :=
  ∃ probe, outcome = .ok probe ∧ schedule.Answers moment probe

/-- It suffices to look at the matches counted before the end of the way. -/
theorem clear_of_beyond {finish : Moment} (finishValid : finish.Valid)
    (beyond : ∀ other : Moment, other.Valid → schedule.Matches other → moment ≤ other →
      ¬other.secondCount < finish.secondCount) : schedule.Clear moment finish := by
  intro other otherValid selected ordered
  apply (Moment.le_iff_second_count_le finishValid otherValid).mpr
  exact Int.not_lt.mp (beyond other otherValid selected ordered)

/-- An answer for a moment entered within the month also answers for the moment
from which it was entered. -/
theorem answered_of_clear {entered : Moment} {outcome : Except Fault Probe}
    (clear : schedule.Clear moment entered) (sameMonth : entered.monthIndex = moment.monthIndex)
    (answered : schedule.Answered entered outcome) : schedule.Answered moment outcome := by
  obtain ⟨probe, looked, answers⟩ := answered
  refine ⟨probe, looked, ?_⟩
  cases probe with
  | hit found =>
      obtain ⟨foundValid, selected, month, onward⟩ := answers
      exact ⟨foundValid, selected, month.trans sameMonth, clear_trans clear onward⟩
  | miss resume => exact ⟨answers.1, clear_trans clear answers.2⟩

/-- With nothing selected in the rest of a unit, the walk goes on at the next. -/
theorem answered_of_reaches {count : Int} {outcome : Except Fault Moment}
    (reached : Moment.Reaches count outcome)
    (nothing : ∀ other : Moment, other.Valid → schedule.Matches other → moment ≤ other →
      ¬other.secondCount < count) : schedule.Answered moment (outcome.map .miss) := by
  obtain ⟨resume, stepped, resumeValid, same⟩ := reached
  refine ⟨.miss resume, ?_, resumeValid, ?_⟩
  · rw [stepped]
    rfl
  · rw [← same] at nothing
    exact clear_of_beyond resumeValid nothing

/-- Likewise with nothing selected in the rest of the month. -/
theorem answered_next_month (valid : moment.Valid) (inSpan : moment.date.year < latestYear)
    (nothing : ∀ other : Moment, other.Valid → schedule.Matches other → moment ≤ other →
      ¬other.monthIndex ≤ moment.monthIndex) :
    schedule.Answered moment (moment.nextMonth.map .miss) := by
  obtain ⟨resume, stepped, resumeValid, index, first⟩ := Moment.next_month_spec valid inSpan
  refine ⟨.miss resume, ?_, resumeValid, ?_⟩
  · rw [stepped]
    rfl
  · intro other otherValid selected ordered
    apply first other otherValid
    have later := nothing other otherValid selected ordered
    omega

theorem probe_second_spec (represents : schedule.Represents expression) (valid : moment.Valid)
    (inSpan : moment.date.year < latestYear) (month : moment.date.month ∈ schedule.months)
    (day : schedule.SelectsDay moment.date) (hour : moment.clock.hour ∈ schedule.hours)
    (minute : moment.clock.minute ∈ schedule.minutes) :
    schedule.Answered moment (schedule.probeSecond moment) := by
  unfold probeSecond
  split
  case h_1 exhausted =>
      apply answered_of_reaches (Moment.next_minute_reaches valid inSpan)
      intro other otherValid selected ordered inside
      obtain ⟨_, _, _, later⟩ := Moment.within_minute valid otherValid ordered inside
      have below := (ValueSet.least_from_eq_none_iff _ _).mp exhausted _ selected.2.2.2.2
      omega
  case h_2 second chosen =>
      have member := ValueSet.least_from_mem chosen
      have bound := represents.seconds second member
      have foundValid : (atSecond moment second).Valid :=
        ⟨valid.1, valid.2.1, valid.2.2.1, bound⟩
      refine ⟨_, rfl, foundValid, ⟨month, day, hour, minute, member⟩, rfl, ?_⟩
      apply clear_of_beyond foundValid
      intro other otherValid selected ordered
      simp only [atSecond, Moment.secondCount, Clock.secondOfDay]
      intro inside
      have within : other.secondCount < (moment.secondCount / 60 + 1) * 60 := by
        simp only [Moment.secondCount, Clock.secondOfDay]
        omega
      obtain ⟨date, sameHour, sameMinute, later⟩ :=
        Moment.within_minute valid otherValid ordered within
      have least := ValueSet.least_from_le chosen selected.2.2.2.2 later
      rw [date, sameHour, sameMinute] at inside
      omega

theorem at_minute_fields (moment : Moment) (minute : Nat) :
    (atMinute moment minute).date = moment.date ∧
      (atMinute moment minute).clock.hour = moment.clock.hour ∧
      (atMinute moment minute).clock.minute = minute := by
  unfold atMinute
  split
  case isTrue same => exact ⟨rfl, rfl, same.symm⟩
  case isFalse => exact ⟨rfl, rfl, rfl⟩

theorem valid_at_minute {minute : Nat} (valid : moment.Valid) (bound : minute ≤ 59) :
    (atMinute moment minute).Valid := by
  unfold atMinute
  split
  case isTrue => exact valid
  case isFalse => exact ⟨valid.1, valid.2.1, bound, Nat.zero_le _⟩

theorem clear_at_minute {minute : Nat} (represents : schedule.Represents expression)
    (valid : moment.Valid)
    (chosen : schedule.minutes.leastFrom? moment.clock.minute = some minute) :
    schedule.Clear moment (atMinute moment minute) := by
  have bound := represents.minutes minute (ValueSet.least_from_mem chosen)
  have enteredValid := valid_at_minute valid bound
  unfold atMinute at enteredValid ⊢
  split
  case isTrue => exact clear_refl
  case isFalse differs =>
      rw [if_neg differs] at enteredValid
      apply clear_of_beyond enteredValid
      intro other otherValid selected ordered
      simp only [Moment.secondCount, Clock.secondOfDay]
      intro inside
      have within : other.secondCount < (moment.secondCount / 3600 + 1) * 3600 := by
        simp only [Moment.secondCount, Clock.secondOfDay]
        omega
      obtain ⟨date, sameHour, later⟩ := Moment.within_hour valid otherValid ordered within
      have least := ValueSet.least_from_le chosen selected.2.2.2.1 later
      rw [date, sameHour] at inside
      omega

theorem probe_minute_spec (represents : schedule.Represents expression) (valid : moment.Valid)
    (inSpan : moment.date.year < latestYear) (month : moment.date.month ∈ schedule.months)
    (day : schedule.SelectsDay moment.date) (hour : moment.clock.hour ∈ schedule.hours) :
    schedule.Answered moment (schedule.probeMinute moment) := by
  unfold probeMinute
  split
  case h_1 exhausted =>
      apply answered_of_reaches (Moment.next_hour_reaches valid inSpan)
      intro other otherValid selected ordered inside
      obtain ⟨_, _, later⟩ := Moment.within_hour valid otherValid ordered inside
      have below := (ValueSet.least_from_eq_none_iff _ _).mp exhausted _ selected.2.2.2.1
      omega
  case h_2 minute chosen =>
      have member := ValueSet.least_from_mem chosen
      have enteredValid := valid_at_minute valid (represents.minutes minute member)
      have clear := clear_at_minute represents valid chosen
      obtain ⟨date, sameHour, sameMinute⟩ := at_minute_fields moment minute
      apply answered_of_clear clear (by rw [Moment.monthIndex, date, Moment.monthIndex])
      apply probe_second_spec represents enteredValid
      · rwa [date]
      · rwa [date]
      · rwa [date]
      · rwa [sameHour]
      · rwa [sameMinute]

theorem at_hour_fields (moment : Moment) (hour : Nat) :
    (atHour moment hour).date = moment.date ∧ (atHour moment hour).clock.hour = hour := by
  unfold atHour
  split
  case isTrue same => exact ⟨rfl, same.symm⟩
  case isFalse => exact ⟨rfl, rfl⟩

theorem valid_at_hour {hour : Nat} (valid : moment.Valid) (bound : hour ≤ 23) :
    (atHour moment hour).Valid := by
  unfold atHour
  split
  case isTrue => exact valid
  case isFalse => exact ⟨valid.1, bound, Nat.zero_le _, Nat.zero_le _⟩

theorem clear_at_hour {hour : Nat} (represents : schedule.Represents expression)
    (valid : moment.Valid) (chosen : schedule.hours.leastFrom? moment.clock.hour = some hour) :
    schedule.Clear moment (atHour moment hour) := by
  have bound := represents.hours hour (ValueSet.least_from_mem chosen)
  have enteredValid := valid_at_hour valid bound
  unfold atHour at enteredValid ⊢
  split
  case isTrue => exact clear_refl
  case isFalse differs =>
      rw [if_neg differs] at enteredValid
      apply clear_of_beyond enteredValid
      intro other otherValid selected ordered
      simp only [Moment.secondCount, Clock.secondOfDay]
      intro inside
      have within : other.secondCount < (moment.secondCount / 86400 + 1) * 86400 := by
        simp only [Moment.secondCount, Clock.secondOfDay]
        omega
      obtain ⟨date, later⟩ := Moment.within_day valid otherValid ordered within
      have least := ValueSet.least_from_le chosen selected.2.2.1 later
      rw [date] at inside
      omega

theorem probe_hour_spec (represents : schedule.Represents expression) (valid : moment.Valid)
    (inSpan : moment.date.year < latestYear) (month : moment.date.month ∈ schedule.months)
    (day : schedule.SelectsDay moment.date) :
    schedule.Answered moment (schedule.probeHour moment) := by
  unfold probeHour
  split
  case h_1 exhausted =>
      apply answered_of_reaches (Moment.next_day_reaches valid inSpan)
      intro other otherValid selected ordered inside
      obtain ⟨_, later⟩ := Moment.within_day valid otherValid ordered inside
      have below := (ValueSet.least_from_eq_none_iff _ _).mp exhausted _ selected.2.2.1
      omega
  case h_2 hour chosen =>
      have member := ValueSet.least_from_mem chosen
      have enteredValid := valid_at_hour valid (represents.hours hour member)
      have clear := clear_at_hour represents valid chosen
      obtain ⟨date, sameHour⟩ := at_hour_fields moment hour
      apply answered_of_clear clear (by rw [Moment.monthIndex, date, Moment.monthIndex])
      apply probe_minute_spec represents enteredValid
      · rwa [date]
      · rwa [date]
      · rwa [date]
      · rwa [sameHour]

theorem first_day_spec (schedule : Schedule) {year : Int} {month : Nat} {days : List Nat}
    (inSpan : earliestYear < year) (valid : ∀ day ∈ days, Date.Valid ⟨year, month, day⟩)
    (ascending : days.Pairwise (· < ·)) :
    ∃ found, schedule.firstDay? year month days = .ok found ∧
      match found with
      | none => ∀ day ∈ days, ¬schedule.SelectsDay ⟨year, month, day⟩
      | some day => day ∈ days ∧ schedule.SelectsDay ⟨year, month, day⟩ ∧
          ∀ other ∈ days, schedule.SelectsDay ⟨year, month, other⟩ → day ≤ other := by
  induction days with
  | nil => exact ⟨none, rfl, by simp⟩
  | cons first later induction =>
      obtain ⟨least, laterAscending⟩ := List.pairwise_cons.mp ascending
      obtain ⟨selected, decided, iff⟩ :=
        matches_day_iff schedule (valid first List.mem_cons_self) inSpan
      cases selected with
      | true =>
          refine ⟨some first, ?_, List.mem_cons_self, iff.mp rfl, ?_⟩
          · simp only [firstDay?, decided]
          · intro other member _
            rcases List.mem_cons.mp member with rfl | member
            · exact Nat.le_refl other
            · exact Nat.le_of_lt (least other member)
      | false =>
          have unselected : ¬schedule.SelectsDay ⟨year, month, first⟩ := by
            intro holds
            cases iff.mpr holds
          obtain ⟨found, searched, spec⟩ :=
            induction (fun day member => valid day (List.mem_cons_of_mem first member))
              laterAscending
          refine ⟨found, ?_, ?_⟩
          · simp only [firstDay?, decided, searched]
          · cases found with
            | none => exact List.forall_mem_cons.mpr ⟨unselected, spec⟩
            | some day =>
                obtain ⟨member, holds, minimal⟩ := spec
                refine ⟨List.mem_cons_of_mem first member, holds, ?_⟩
                exact List.forall_mem_cons.mpr ⟨fun selected => absurd selected unselected, minimal⟩

theorem valid_at_day {day : Nat} (valid : moment.Valid)
    (dateValid : Date.Valid { moment.date with day := day }) : (atDay moment day).Valid := by
  unfold atDay
  split
  case isTrue => exact valid
  case isFalse => exact ⟨dateValid, Nat.zero_le _, Nat.zero_le _, Nat.zero_le _⟩

theorem at_day_le {other : Moment} {day : Nat} (valid : moment.Valid) (otherValid : other.Valid)
    (ordered : moment ≤ other) (inside : other.monthIndex ≤ moment.monthIndex)
    (reached : day ≤ other.date.day) : atDay moment day ≤ other := by
  obtain ⟨sameYear, sameMonth, _⟩ := Moment.within_month valid otherValid ordered inside
  unfold atDay
  split
  case isTrue => exact ordered
  case isFalse =>
      apply (Moment.not_lt_iff_le other _).mp
      simp only [Moment.lt_iff, Date.lt_iff, Clock.lt_iff, Moment.midnight, Clock.midnight]
      omega

def restOfMonth (date : Date) : List Nat :=
  List.range' date.day (monthLength date.year date.month + 1 - date.day)

theorem mem_rest_of_month {date : Date} (valid : date.Valid) (day : Nat) :
    day ∈ restOfMonth date ↔ date.day ≤ day ∧ Date.Valid { date with day := day } := by
  have positive := valid.1
  simp only [restOfMonth, List.mem_range'_1, Date.Valid]
  omega

theorem probe_day_spec (represents : schedule.Represents expression) (valid : moment.Valid)
    (lower : earliestYear < moment.date.year) (upper : moment.date.year < latestYear)
    (month : moment.date.month ∈ schedule.months) :
    schedule.Answered moment (schedule.probeDay moment) := by
  have known : daysInMonth moment.date.year moment.date.month =
      .ok (monthLength moment.date.year moment.date.month) := if_pos (Date.valid_month valid.1)
  have ascending : (restOfMonth moment.date).Pairwise (· < ·) := List.pairwise_lt_range'
  obtain ⟨found, searched, spec⟩ := first_day_spec schedule lower
    (fun day member => ((mem_rest_of_month valid.1 day).mp member).2) ascending
  simp only [probeDay, known]
  rw [← restOfMonth, searched]
  -- matches of the month in view fall on days that the list holds
  have listed : ∀ other : Moment, other.Valid → schedule.Matches other → moment ≤ other →
      other.monthIndex ≤ moment.monthIndex → other.date.day ∈ restOfMonth moment.date ∧
        schedule.SelectsDay ⟨moment.date.year, moment.date.month, other.date.day⟩ := by
    intro other otherValid selected ordered inside
    obtain ⟨sameYear, sameMonth, later⟩ := Moment.within_month valid otherValid ordered inside
    simp only [mem_rest_of_month valid.1, ← sameYear, ← sameMonth]
    exact ⟨⟨later, otherValid.1⟩, selected.2.1⟩
  cases found with
  | none =>
      apply answered_next_month valid upper
      intro other otherValid selected ordered inside
      obtain ⟨member, holds⟩ := listed other otherValid selected ordered inside
      exact spec other.date.day member holds
  | some day =>
      obtain ⟨member, holds, minimal⟩ := spec
      obtain ⟨later, dateValid⟩ := (mem_rest_of_month valid.1 day).mp member
      have enteredValid := valid_at_day valid dateValid
      have date := at_day_date moment day
      have sameMonth : (atDay moment day).monthIndex = moment.monthIndex := by
        rw [Moment.monthIndex, date]
        rfl
      have clear : schedule.Clear moment (atDay moment day) := by
        intro other otherValid selected ordered
        apply (Moment.not_lt_iff_le other (atDay moment day)).mp
        intro before
        have inside := Moment.month_index_mono otherValid enteredValid (Moment.le_of_lt before)
        rw [sameMonth] at inside
        obtain ⟨otherMember, otherHolds⟩ := listed other otherValid selected ordered inside
        have least := minimal other.date.day otherMember otherHolds
        exact (Moment.not_lt_iff_le other _).mpr
          (at_day_le valid otherValid ordered inside least) before
      apply answered_of_clear clear sameMonth
      apply probe_hour_spec represents enteredValid
      · rwa [date]
      · rwa [date]
      · rwa [date]

theorem probe_spec (represents : schedule.Represents expression) (valid : moment.Valid)
    (lower : earliestYear < moment.date.year) (upper : moment.date.year < latestYear) :
    schedule.Answered moment (schedule.probe moment) := by
  unfold probe
  split
  case isTrue month => exact probe_day_spec represents valid lower upper month
  case isFalse unselected =>
      apply answered_next_month valid upper
      intro other otherValid selected ordered inside
      obtain ⟨_, sameMonth, _⟩ := Moment.within_month valid otherValid ordered inside
      rw [← sameMonth] at unselected
      exact unselected selected.1

/-- What a search within a limit of months finds. -/
def Finds (schedule : Schedule) (limit : Int) (start : Moment) : Option Moment → Prop
  | some found =>
      found.Valid ∧ schedule.Matches found ∧ start ≤ found ∧ found.monthIndex ≤ limit ∧
        schedule.Clear start found
  | none =>
      ∀ other : Moment, other.Valid → schedule.Matches other → start ≤ other →
        limit < other.monthIndex

theorem finds_of_clear {limit : Int} {resume : Moment} {result : Option Moment}
    (forward : moment ≤ resume) (clear : schedule.Clear moment resume)
    (finds : schedule.Finds limit resume result) : schedule.Finds limit moment result := by
  cases result with
  | some found =>
      obtain ⟨foundValid, selected, later, inReach, onward⟩ := finds
      exact ⟨foundValid, selected, Moment.le_trans forward later, inReach,
        clear_trans clear onward⟩
  | none =>
      intro other otherValid selected ordered
      exact finds other otherValid selected (clear other otherValid selected ordered)

/-- The search always ends with a result, and passes over no match before it. -/
theorem search_up_to_spec {limit : Int} (represents : schedule.Represents expression)
    (bounded : limit < latestYear * 12) (valid : moment.Valid)
    (lower : earliestYear < moment.date.year) :
    ∃ result, schedule.searchUpTo limit moment = .ok result ∧
      schedule.Finds limit moment result := by
  have inSpan : ∀ {current : Moment}, current.Valid → current.monthIndex ≤ limit →
      current.date.year < latestYear := by
    intro current currentValid inReach
    have months := Moment.month_index_bounds currentValid
    omega
  fun_induction schedule.searchUpTo limit moment with
  | case1 moment inReach fault looked =>
      obtain ⟨probe, answered, _⟩ := probe_spec represents valid lower (inSpan valid inReach)
      rw [looked] at answered
      cases answered
  | case2 moment inReach found looked =>
      obtain ⟨probe, answered, answers⟩ := probe_spec represents valid lower (inSpan valid inReach)
      rw [looked] at answered
      rw [← Except.ok.inj answered] at answers
      obtain ⟨foundValid, selected, sameMonth, clear⟩ := answers
      exact ⟨some found, rfl, foundValid, selected, follows_probe looked, by omega, clear⟩
  | case3 moment inReach resume looked _ induction =>
      obtain ⟨probe, answered, answers⟩ := probe_spec represents valid lower (inSpan valid inReach)
      rw [looked] at answered
      rw [← Except.ok.inj answered] at answers
      obtain ⟨resumeValid, clear⟩ := answers
      have forward := Moment.le_of_lt (follows_probe looked).1
      have later := Moment.month_index_mono valid resumeValid forward
      have resumeLower : earliestYear < resume.date.year := by
        have months := Moment.month_index_bounds valid
        have resumeMonths := Moment.month_index_bounds resumeValid
        omega
      obtain ⟨result, searched, finds⟩ := induction resumeValid resumeLower
      exact ⟨result, searched, finds_of_clear forward clear finds⟩
  | case4 moment beyond =>
      refine ⟨none, rfl, ?_⟩
      intro other otherValid _ ordered
      have month := Moment.month_index_mono valid otherValid ordered
      omega

/-- A look that hits ends the search. -/
theorem search_up_to_hit {limit : Int} {found : Moment} (inReach : moment.monthIndex ≤ limit)
    (looked : schedule.probe moment = .ok (.hit found)) :
    schedule.searchUpTo limit moment = .ok (some found) := by
  rw [searchUpTo, dif_pos inReach]
  split
  case h_1 fault failed =>
      rw [looked] at failed
      cases failed
  case h_2 other hit =>
      rw [looked] at hit
      cases hit
      rfl
  case h_3 other missed =>
      rw [looked] at missed
      cases missed

/-- After a look that misses the search is that from where it goes on. -/
theorem search_up_to_miss {limit : Int} {resume : Moment} (inReach : moment.monthIndex ≤ limit)
    (looked : schedule.probe moment = .ok (.miss resume)) :
    schedule.searchUpTo limit moment = schedule.searchUpTo limit resume := by
  rw [searchUpTo, dif_pos inReach]
  split
  case h_1 fault failed =>
      rw [looked] at failed
      cases failed
  case h_2 other hit =>
      rw [looked] at hit
      cases hit
  case h_3 other missed =>
      rw [looked] at missed
      cases missed
      rfl

/-- After looks that miss one after the other the search is that from where the last of
them goes on. -/
theorem search_up_to_misses {limit : Int} (resumes : List Moment)
    (missed : (moment :: resumes).IsChain fun here resume =>
      here.monthIndex ≤ limit ∧ schedule.probe here = .ok (.miss resume)) :
    schedule.searchUpTo limit moment = schedule.searchUpTo limit (resumes.getLastD moment) := by
  induction resumes generalizing moment with
  | nil => rfl
  | cons resume later induction =>
      obtain ⟨⟨inReach, looked⟩, continued⟩ := List.isChain_cons_cons.mp missed
      rw [search_up_to_miss inReach looked, List.getLastD_cons]
      exact induction continued

/-- A month beyond the limit ends the search with nothing. -/
theorem search_up_to_beyond {limit : Int} (beyond : limit < moment.monthIndex) :
    schedule.searchUpTo limit moment = .ok none := by
  rw [searchUpTo, dif_neg (Int.not_le.mpr beyond)]

/-- No horizon reaches the end of the years when the search begins in the
representable ones or just after them. -/
theorem search_spec {start : Moment} (represents : schedule.Represents expression)
    (valid : start.Valid) (lower : Moment.firstYear ≤ start.date.year)
    (upper : start.date.year ≤ Moment.lastYear + 1) (horizon : UInt32) :
    ∃ result, schedule.search start horizon = .ok result ∧
      schedule.Finds (start.monthIndex + horizon.toNat) start result := by
  have month := (Date.valid_month valid.1).2
  have months := horizon.toNat_lt
  simp only [Moment.firstYear] at lower
  simp only [Moment.lastYear] at upper
  apply search_up_to_spec represents _ valid
  · simp only [earliestYear]
    omega
  · simp only [Moment.monthIndex, Date.monthIndex, latestYear]
    omega

end CronSchedule.Schedule

namespace CronSchedule

/-- The matches of an expression from a moment on, the moment itself included. -/
def Expression.matchesFrom (expression : Expression) (start : Moment) : Set Moment :=
  {moment | moment.Valid ∧ expression.Matches moment ∧ start ≤ moment}

namespace Schedule

variable {schedule : Schedule} {expression : Expression} {start found : Moment} {limit : Int}

theorem finds_some_iff (represents : schedule.Represents expression) :
    schedule.Finds limit start (some found) ↔
      IsLeast (expression.matchesFrom start) found ∧ found.monthIndex ≤ limit := by
  constructor
  · rintro ⟨valid, selected, reached, inReach, clear⟩
    refine ⟨⟨⟨valid, (represents.fires found valid).mp selected, reached⟩, ?_⟩, inReach⟩
    rintro other ⟨otherValid, otherSelected, ordered⟩
    exact clear other otherValid ((represents.fires other otherValid).mpr otherSelected) ordered
  · rintro ⟨⟨⟨valid, selected, reached⟩, least⟩, inReach⟩
    refine ⟨valid, (represents.fires found valid).mpr selected, reached, inReach, ?_⟩
    intro other otherValid otherSelected ordered
    exact least ⟨otherValid, (represents.fires other otherValid).mp otherSelected, ordered⟩

theorem finds_none_iff (represents : schedule.Represents expression) :
    schedule.Finds limit start none ↔
      ∀ other ∈ expression.matchesFrom start, limit < other.monthIndex := by
  constructor
  · rintro beyond other ⟨otherValid, otherSelected, ordered⟩
    exact beyond other otherValid ((represents.fires other otherValid).mpr otherSelected) ordered
  · intro beyond other otherValid otherSelected ordered
    exact beyond other ⟨otherValid, (represents.fires other otherValid).mp otherSelected, ordered⟩

/-- A search finds one thing at most. -/
theorem finds_unique (represents : schedule.Represents expression)
    {first second : Option Moment} (firstFinds : schedule.Finds limit start first)
    (secondFinds : schedule.Finds limit start second) : first = second := by
  cases first with
  | none =>
      cases second with
      | none => rfl
      | some found =>
          obtain ⟨least, inReach⟩ := (finds_some_iff represents).mp secondFinds
          have beyond := (finds_none_iff represents).mp firstFinds found least.1
          omega
  | some found =>
      obtain ⟨least, inReach⟩ := (finds_some_iff represents).mp firstFinds
      cases second with
      | none =>
          have beyond := (finds_none_iff represents).mp secondFinds found least.1
          omega
      | some other =>
          have otherLeast := ((finds_some_iff represents).mp secondFinds).1
          rw [Moment.le_antisymm (least.2 otherLeast.1) (otherLeast.2 least.1)]

/-- The outcome of a search is the one that its limit and the matches determine. -/
theorem search_eq_iff {horizon : UInt32} (represents : schedule.Represents expression)
    (valid : start.Valid) (lower : earliestYear < start.date.year)
    (room : start.monthIndex + horizon.toNat < latestYear * 12) (result : Option Moment) :
    schedule.search start horizon = .ok result ↔
      schedule.Finds (start.monthIndex + horizon.toNat) start result := by
  obtain ⟨outcome, searched, finds⟩ := search_up_to_spec represents room valid lower
  rw [search, searched, Except.ok.injEq]
  constructor
  · intro same
    rwa [← same]
  · exact finds_unique represents finds

end Schedule

namespace Expression

/-- The search finds the least match from its start on if that lies within the horizon,
counted in months from the month of the start, and nothing if no match does. -/
theorem search_finds_least_match {text : String} {expression : Expression}
    (accepted : parse text = .ok expression) :
    ∃ schedule, Schedule.ofExpression expression = .ok schedule ∧
      ∀ (start : Moment) (horizon : UInt32), start.Valid → earliestYear < start.date.year →
        start.monthIndex + horizon.toNat < latestYear * 12 →
        (∃ result, schedule.search start horizon = .ok result) ∧
        (∀ found, schedule.search start horizon = .ok (some found) ↔
          IsLeast (expression.matchesFrom start) found ∧
            found.monthIndex - start.monthIndex ≤ horizon.toNat) ∧
        (schedule.search start horizon = .ok none ↔
          ∀ other ∈ expression.matchesFrom start,
            horizon.toNat < other.monthIndex - start.monthIndex) := by
  obtain ⟨schedule, made, represents⟩ :=
    Schedule.of_expression_spec (well_formed_of_parse accepted)
  refine ⟨schedule, made, ?_⟩
  intro start horizon valid lower room
  obtain ⟨result, searched, _⟩ := Schedule.search_up_to_spec represents room valid lower
  refine ⟨⟨result, searched⟩, ?_, ?_⟩
  · intro found
    rw [Schedule.search_eq_iff represents valid lower room, Schedule.finds_some_iff represents]
    apply and_congr_right
    intro _
    omega
  · rw [Schedule.search_eq_iff represents valid lower room, Schedule.finds_none_iff represents]
    apply forall₂_congr
    intro other _
    omega

/-- On the first of a month or on a Sunday. After the last Sunday of February 2024 the
first match lies in March, which a horizon of one month reaches and one of none does not. -/
theorem search_finds_least_match_on_either_day :
    let expression : Expression :=
      ⟨none, .specific 30, .specific 4, .specific 1, .any, .specific 0⟩
    let start : Moment := ⟨⟨2024, 2, 25⟩, ⟨4, 31, 0⟩⟩
    let found : Moment := ⟨⟨2024, 3, 1⟩, ⟨4, 30, 0⟩⟩
    parse "30 4 1 * 7" = .ok expression ∧ start.Valid ∧ earliestYear < start.date.year ∧
      start.monthIndex + (1 : UInt32).toNat < latestYear * 12 ∧
      (∀ other ∈ expression.matchesFrom start, 0 < other.monthIndex - start.monthIndex) ∧
      IsLeast (expression.matchesFrom start) found ∧
      found.monthIndex - start.monthIndex ≤ 1 := by
  intro expression start found
  have accepted : parse "30 4 1 * 7" = .ok expression := by decide
  have valid : start.Valid := by decide
  have lower : earliestYear < start.date.year := by decide
  have room : start.monthIndex + (1 : UInt32).toNat < latestYear * 12 := by decide
  let schedule : Schedule := ⟨false, .singleton 0, .singleton 30, .singleton 4,
    some (.singleton 1), .stepping 1 12 1, some (.singleton 0)⟩
  have made : Schedule.ofExpression expression = .ok schedule := by decide
  -- it is too late today, and no later day of February is selected
  let resumes : List Moment :=
    [⟨⟨2024, 2, 25⟩, ⟨5, 0, 0⟩⟩, ⟨⟨2024, 2, 26⟩, ⟨0, 0, 0⟩⟩, ⟨⟨2024, 3, 1⟩, ⟨0, 0, 0⟩⟩]
  have nothing : schedule.search start 0 = .ok none := by
    rw [Schedule.search, Schedule.search_up_to_misses resumes (by decide)]
    exact Schedule.search_up_to_beyond (by decide)
  have hit : schedule.search start 1 = .ok (some found) := by
    rw [Schedule.search, Schedule.search_up_to_misses resumes (by decide)]
    exact Schedule.search_up_to_hit (by decide) (by decide)
  obtain ⟨other, otherMade, exactly⟩ := search_finds_least_match accepted
  rw [made] at otherMade
  obtain rfl : schedule = other := Except.ok.inj otherMade
  have within := (exactly start 1 valid lower room).2.1 found
  have beyond := (exactly start 0 valid lower (by decide)).2.2
  exact ⟨accepted, valid, lower, room, beyond.mp nothing, within.mp hit⟩

end Expression

end CronSchedule
