import CronSchedule.Outcome
import CronSchedule.Schedule.Basic

/-!
# Search for the next matching moment

The search looks at one moment at a time. A look goes through the fields from the
month down to the second. It either finds a match or names the moment from which
to go on, which is the beginning of the next month, day, hour or minute and thus
strictly later. The search gives up when the month in view lies beyond the
horizon, counted in months from the month where the search began.
-/

namespace CronSchedule

set_option autoImplicit false

inductive Probe where
  | hit (found : Moment)
  | miss (resume : Moment)
  deriving DecidableEq, Repr

namespace Schedule

/-- The first matching day among the listed days of a month. -/
def firstDay? (schedule : Schedule) (year : Int) (month : Nat) :
    List Nat → Except Fault (Option Nat)
  | [] => .ok none
  | day :: later =>
      match schedule.matchesDay ⟨year, month, day⟩ with
      | .error fault => .error fault
      | .ok true => .ok (some day)
      | .ok false => schedule.firstDay? year month later

/-- The moment at which a day of the month in view is entered: unchanged on the day
in view itself, and midnight on a later one. -/
def atDay (moment : Moment) (day : Nat) : Moment :=
  if day = moment.date.day then moment else Moment.midnight { moment.date with day := day }

/-- Likewise for an hour of the day in view. -/
def atHour (moment : Moment) (hour : Nat) : Moment :=
  if hour = moment.clock.hour then moment else ⟨moment.date, ⟨hour, 0, 0⟩⟩

/-- Likewise for a minute of the hour in view. -/
def atMinute (moment : Moment) (minute : Nat) : Moment :=
  if minute = moment.clock.minute then moment
  else ⟨moment.date, ⟨moment.clock.hour, minute, 0⟩⟩

def atSecond (moment : Moment) (second : Nat) : Moment :=
  ⟨moment.date, { moment.clock with second := second }⟩

/-- Looks for a matching second in the rest of the minute. -/
def probeSecond (schedule : Schedule) (moment : Moment) : Except Fault Probe :=
  match schedule.seconds.leastFrom? moment.clock.second with
  | none => moment.nextMinute.map .miss
  | some second => .ok (.hit (atSecond moment second))

def probeMinute (schedule : Schedule) (moment : Moment) : Except Fault Probe :=
  match schedule.minutes.leastFrom? moment.clock.minute with
  | none => moment.nextHour.map .miss
  | some minute => schedule.probeSecond (atMinute moment minute)

def probeHour (schedule : Schedule) (moment : Moment) : Except Fault Probe :=
  match schedule.hours.leastFrom? moment.clock.hour with
  | none => moment.nextDay.map .miss
  | some hour => schedule.probeMinute (atHour moment hour)

def probeDay (schedule : Schedule) (moment : Moment) : Except Fault Probe :=
  match daysInMonth moment.date.year moment.date.month with
  | .error fault => .error fault
  | .ok length =>
      let days := List.range' moment.date.day (length + 1 - moment.date.day)
      match schedule.firstDay? moment.date.year moment.date.month days with
      | .error fault => .error fault
      | .ok none => moment.nextMonth.map .miss
      | .ok (some day) => schedule.probeHour (atDay moment day)

def probe (schedule : Schedule) (moment : Moment) : Except Fault Probe :=
  if moment.date.month ∈ schedule.months then schedule.probeDay moment
  else moment.nextMonth.map .miss

theorem first_day_mem {schedule : Schedule} {year : Int} {month day : Nat} {days : List Nat}
    (found : schedule.firstDay? year month days = .ok (some day)) : day ∈ days := by
  induction days with
  | nil => simp [firstDay?] at found
  | cons first later induction =>
      simp only [firstDay?] at found
      split at found
      case h_1 => cases found
      case h_2 =>
          obtain rfl := Option.some.inj (Except.ok.inj found)
          exact List.mem_cons_self
      case h_3 => exact List.mem_cons_of_mem _ (induction found)

theorem at_day_date (moment : Moment) (day : Nat) :
    (atDay moment day).date = { moment.date with day := day } := by
  unfold atDay
  split
  case isTrue same => rw [same]
  case isFalse => rfl

theorem le_at_day {moment : Moment} {day : Nat} (later : moment.date.day ≤ day) :
    moment ≤ atDay moment day := by
  unfold atDay
  split
  case isTrue => exact Moment.le_refl moment
  case isFalse differs =>
      have dayLater : moment.date.day < day := by omega
      exact Or.inl (Or.inl (Or.inr ⟨rfl, Or.inr ⟨rfl, dayLater⟩⟩))

theorem le_at_hour {moment : Moment} {hour : Nat} (later : moment.clock.hour ≤ hour) :
    moment ≤ atHour moment hour := by
  unfold atHour
  split
  case isTrue => exact Moment.le_refl moment
  case isFalse differs =>
      have hourLater : moment.clock.hour < hour := by omega
      exact Or.inl (Or.inr ⟨rfl, Or.inl hourLater⟩)

theorem le_at_minute {moment : Moment} {minute : Nat} (later : moment.clock.minute ≤ minute) :
    moment ≤ atMinute moment minute := by
  unfold atMinute
  split
  case isTrue => exact Moment.le_refl moment
  case isFalse differs =>
      have minuteLater : moment.clock.minute < minute := by omega
      exact Or.inl (Or.inr ⟨rfl, Or.inr ⟨rfl, Or.inl minuteLater⟩⟩)

theorem le_at_second {moment : Moment} {second : Nat} (later : moment.clock.second ≤ second) :
    moment ≤ atSecond moment second := by
  rcases Nat.lt_or_eq_of_le later with secondLater | rfl
  · exact Or.inl (Or.inr ⟨rfl, Or.inr ⟨rfl, Or.inr ⟨rfl, secondLater⟩⟩⟩)
  · exact Moment.le_refl moment

/-- More than any hour that a look can go on with. -/
def hourRoom (schedule : Schedule) : Nat := max 24 (schedule.hours.toList.max?.getD 0 + 1)

theorem lt_hour_room {schedule : Schedule} {hour : Nat} (member : hour ∈ schedule.hours) :
    hour < schedule.hourRoom := by
  have bound : hour ≤ schedule.hours.toList.max?.getD 0 := List.le_max?_getD_of_mem member
  unfold hourRoom
  omega

/-- The walk goes on in the next month, or on a later day of the same month, or in a
later hour of the same day, or in a later minute of the same hour. -/
def Advances (schedule : Schedule) (moment resume : Moment) : Prop :=
  resume.date.monthRank = moment.date.monthRank + 1 ∨
    resume.date.monthRank = moment.date.monthRank ∧
      (moment.date.day < resume.date.day ∧ resume.date.day ≤ 31 ∨
        resume.date.day = moment.date.day ∧
          (moment.clock.hour < resume.clock.hour ∧ resume.clock.hour < schedule.hourRoom ∨
            resume.clock.hour = moment.clock.hour ∧
              moment.clock.minute < resume.clock.minute ∧ resume.clock.minute ≤ 59))

/-- A look never goes back, and one that fails goes strictly forward. -/
def Follows (schedule : Schedule) (moment : Moment) : Probe → Prop
  | .hit found => moment ≤ found
  | .miss resume => moment < resume ∧ schedule.Advances moment resume

theorem follows_of_le {schedule : Schedule} {moment entered : Moment} {probe : Probe}
    (forward : moment ≤ entered)
    (advances : ∀ resume, schedule.Advances entered resume → schedule.Advances moment resume)
    (follows : schedule.Follows entered probe) : schedule.Follows moment probe := by
  cases probe with
  | hit found => exact Moment.le_trans forward follows
  | miss resume =>
      exact ⟨Moment.lt_of_le_of_lt forward follows.1, advances resume follows.2⟩

theorem advances_next_month {schedule : Schedule} {moment resume : Moment}
    (stepped : moment.nextMonth = .ok resume) : schedule.Advances moment resume :=
  Or.inl (Date.month_rank_next_month (Moment.date_of_next_month stepped))

theorem advances_next_day {schedule : Schedule} {moment resume : Moment}
    (stepped : moment.nextDay = .ok resume) : schedule.Advances moment resume := by
  rcases Date.next_day_cases (Moment.date_of_next_day stepped) with nextMonth | ⟨next, bound⟩
  · exact Or.inl (Date.month_rank_next_month nextMonth)
  · refine Or.inr ?_
    rw [next]
    exact ⟨rfl, Or.inl ⟨Nat.lt_succ_self _, bound⟩⟩

theorem advances_next_hour {schedule : Schedule} {moment resume : Moment}
    (stepped : moment.nextHour = .ok resume) : schedule.Advances moment resume := by
  unfold Moment.nextHour Clock.nextHour? at stepped
  split at stepped
  case isTrue before =>
      obtain rfl := Except.ok.inj stepped
      have room : 24 ≤ schedule.hourRoom := Nat.le_max_left _ _
      have later : moment.clock.hour + 1 < schedule.hourRoom := by omega
      exact Or.inr ⟨rfl, Or.inr ⟨rfl, Or.inl ⟨Nat.lt_succ_self _, later⟩⟩⟩
  case isFalse => exact advances_next_day stepped

theorem advances_next_minute {schedule : Schedule} {moment resume : Moment}
    (stepped : moment.nextMinute = .ok resume) : schedule.Advances moment resume := by
  unfold Moment.nextMinute Clock.nextMinute? at stepped
  split at stepped
  case isTrue before =>
      obtain rfl := Except.ok.inj stepped
      exact Or.inr ⟨rfl, Or.inr ⟨rfl, Or.inr ⟨rfl, Nat.lt_succ_self _, before⟩⟩⟩
  case isFalse => exact advances_next_hour stepped

theorem follows_probe_second {schedule : Schedule} {moment : Moment} {probe : Probe}
    (looked : schedule.probeSecond moment = .ok probe) : schedule.Follows moment probe := by
  unfold probeSecond at looked
  split at looked
  case h_1 =>
      obtain ⟨resume, stepped, rfl⟩ := map_eq_ok_iff.mp looked
      exact ⟨Moment.lt_next_minute stepped, advances_next_minute stepped⟩
  case h_2 second chosen =>
      obtain rfl := Except.ok.inj looked
      exact le_at_second (ValueSet.least_from_ge chosen)

theorem follows_probe_minute {schedule : Schedule} {moment : Moment} {probe : Probe}
    (looked : schedule.probeMinute moment = .ok probe) : schedule.Follows moment probe := by
  unfold probeMinute at looked
  split at looked
  case h_1 =>
      obtain ⟨resume, stepped, rfl⟩ := map_eq_ok_iff.mp looked
      exact ⟨Moment.lt_next_hour stepped, advances_next_hour stepped⟩
  case h_2 minute chosen =>
      have later := ValueSet.least_from_ge chosen
      refine follows_of_le (le_at_minute later) ?_ (follows_probe_second looked)
      intro resume advances
      unfold atMinute at advances
      split at advances
      case isTrue => exact advances
      case isFalse =>
          simp only [Advances] at advances ⊢
          omega

theorem follows_probe_hour {schedule : Schedule} {moment : Moment} {probe : Probe}
    (looked : schedule.probeHour moment = .ok probe) : schedule.Follows moment probe := by
  unfold probeHour at looked
  split at looked
  case h_1 =>
      obtain ⟨resume, stepped, rfl⟩ := map_eq_ok_iff.mp looked
      exact ⟨Moment.lt_next_day stepped, advances_next_day stepped⟩
  case h_2 hour chosen =>
      have later := ValueSet.least_from_ge chosen
      have room := lt_hour_room (ValueSet.least_from_mem chosen)
      refine follows_of_le (le_at_hour later) ?_ (follows_probe_minute looked)
      intro resume advances
      unfold atHour at advances
      split at advances
      case isTrue => exact advances
      case isFalse =>
          simp only [Advances] at advances ⊢
          omega

theorem follows_probe_day {schedule : Schedule} {moment : Moment} {probe : Probe}
    (looked : schedule.probeDay moment = .ok probe) : schedule.Follows moment probe := by
  unfold probeDay at looked
  split at looked
  case h_1 => cases looked
  case h_2 length known =>
      have inMonth := ((days_in_month_eq_ok_iff _ _ _).mp known).2
      have bound := month_length_le moment.date.year moment.date.month
      simp only at looked
      split at looked
      case h_1 => cases looked
      case h_2 =>
          obtain ⟨resume, stepped, rfl⟩ := map_eq_ok_iff.mp looked
          exact ⟨Moment.lt_next_month stepped, advances_next_month stepped⟩
      case h_3 day chosen =>
          have member := List.mem_range'_1.mp (first_day_mem chosen)
          refine follows_of_le (le_at_day member.1) ?_ (follows_probe_hour looked)
          intro resume advances
          unfold atDay at advances
          split at advances
          case isTrue => exact advances
          case isFalse =>
              simp only [Advances, Moment.midnight, Date.monthRank] at advances ⊢
              omega

theorem follows_probe {schedule : Schedule} {moment : Moment} {probe : Probe}
    (looked : schedule.probe moment = .ok probe) : schedule.Follows moment probe := by
  unfold Schedule.probe at looked
  split at looked
  case isTrue => exact follows_probe_day looked
  case isFalse =>
      obtain ⟨resume, stepped, rfl⟩ := map_eq_ok_iff.mp looked
      exact ⟨Moment.lt_next_month stepped, advances_next_month stepped⟩

/-- The months left to look at, the days left of the month in view, the hours left of
the day and the minutes left of the hour. -/
def left (schedule : Schedule) (limit : Int) (moment : Moment) : Nat × Nat × Nat × Nat :=
  ((limit + 2 - moment.date.monthRank).toNat, 32 - moment.date.day,
    schedule.hourRoom - moment.clock.hour, 60 - moment.clock.minute)

/-- Each failed look within the limit leaves less in the first of these that it
changes. -/
theorem left_of_advances {schedule : Schedule} {limit : Int} {moment resume : Moment}
    (inReach : moment.monthIndex ≤ limit) (advances : schedule.Advances moment resume) :
    Prod.Lex (· < ·) (Prod.Lex (· < ·) (Prod.Lex (· < ·) (· < ·)))
      (schedule.left limit resume) (schedule.left limit moment) := by
  have reach := Date.month_rank_le_month_index moment.date
  simp only [Moment.monthIndex] at inReach
  rcases advances with month | ⟨month, day | ⟨day, hour | ⟨hour, minute⟩⟩⟩
  · exact Prod.Lex.left _ _ (by omega)
  · rw [left, month]
    exact Prod.Lex.right _ (Prod.Lex.left _ _ (by omega))
  · rw [left, month, day]
    exact Prod.Lex.right _ (Prod.Lex.right _ (Prod.Lex.left _ _ (by omega)))
  · rw [left, month, day, hour]
    exact Prod.Lex.right _ (Prod.Lex.right _ (Prod.Lex.right _ (by omega)))

/-- The first matching moment from `moment` on whose month lies no later than the
limit. -/
def searchUpTo (schedule : Schedule) (limit : Int) (moment : Moment) :
    Except Fault (Option Moment) :=
  if inReach : moment.monthIndex ≤ limit then
    match looked : schedule.probe moment with
    | .error fault => .error fault
    | .ok (.hit found) => .ok (some found)
    | .ok (.miss resume) =>
        have := left_of_advances inReach (follows_probe looked).2
        schedule.searchUpTo limit resume
  else .ok none
termination_by schedule.left limit moment
decreasing_by assumption

/-- The first matching moment from `start` on that lies no more than `horizon`
months ahead, counted from month to month. -/
def search (schedule : Schedule) (start : Moment) (horizon : UInt32) :
    Except Fault (Option Moment) :=
  schedule.searchUpTo (start.monthIndex + horizon.toNat) start

theorem search_ge {schedule : Schedule} {start found : Moment} {horizon : UInt32}
    (result : schedule.search start horizon = .ok (some found)) : start ≤ found := by
  have general : ∀ limit moment, schedule.searchUpTo limit moment = .ok (some found) →
      moment ≤ found := by
    intro limit moment
    fun_induction schedule.searchUpTo limit moment with
    | case1 moment inReach fault look => simp
    | case2 moment inReach hit look =>
        intro same
        rw [← Option.some.inj (Except.ok.inj same)]
        exact follows_probe look
    | case3 moment inReach resume look _ induction =>
        intro same
        exact Moment.le_trans (Moment.le_of_lt (follows_probe look).1) (induction same)
    | case4 moment beyond => simp
  exact general _ start result

end Schedule

end CronSchedule
