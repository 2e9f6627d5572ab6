import CronSchedule.Calendar.Rank
import CronSchedule.Schedule.Search
import CronSchedule.Zone

/-!
# Series of occurrences

A series yields the instants at which a schedule fires in a zone, strictly after
the instant it was made for and in ascending order. It walks along the wall
clock: every matching moment is turned into an instant, and moments that stand
for no instant after the previous occurrence are passed over. The series ends
when no match lies within the horizon of the walk, or when the match found is
not representable, and stays ended until it is rewound.
-/

namespace CronSchedule

set_option autoImplicit false

structure Series where
  schedule : Schedule
  zone : Zone
  /-- How many months ahead each search may look. -/
  horizon : UInt32
  /-- Where the walk along the wall clock began. -/
  start : Moment
  /-- The instant that all occurrences come after. -/
  origin : Instant
  /-- Where the walk goes on, or `none` once the series has ended. -/
  position : Option Moment
  /-- The previous occurrence, or the origin before the first one. -/
  floor : Instant
  deriving DecidableEq, Repr

namespace Series

/-- Five years. -/
def defaultHorizon : UInt32 := 60

/-- The series of a schedule after an instant. Only instants with a representable
local time have one. The walk begins a second or a minute later, and the instant's
own fraction of it is dropped. -/
def ofSchedule (schedule : Schedule) (zone : Zone) (origin : Instant) : Except Fault Series :=
  if InSpan (zone.localCount origin) then do
    let start ← schedule.step (zone.localMoment origin)
    return ⟨schedule, zone, defaultHorizon, start, origin, some start, origin⟩
  else .error .localTimeLimit

/-- What is left of the representable wall clock, as a number that no walk can
lower forever. -/
def left (position : Moment) : Nat :=
  ((Moment.lastYear + 1) * Moment.ranksPerYear - position.rank).toNat

/-- A match that is representable lies before the end of the wall clock, and the
walk goes on after it. -/
theorem left_of_step {schedule : Schedule} {horizon : UInt32} {position found resume : Moment}
    (searched : schedule.search position horizon = .ok (some found))
    (representable : found.Representable) (stepped : schedule.step found = .ok resume) :
    left resume < left position := by
  have forward := Moment.rank_le_of_le representable.1 (Schedule.search_ge searched)
  have bounded := Moment.bounded_of_valid representable.1
  have strictly := Moment.rank_lt_of_lt (Or.inl bounded) (Schedule.lt_step stepped)
  have bound := Moment.rank_lt_of_representable representable
  simp only [left]
  omega

/-- Walks on to the next occurrence after `floor`; the result also tells where the
walk goes on after it. -/
def advance (schedule : Schedule) (zone : Zone) (horizon : UInt32) (floor : Instant)
    (position : Moment) : Except Fault (Option (Instant × Moment)) :=
  match searched : schedule.search position horizon with
  | .error fault => .error fault
  | .ok none => .ok none
  | .ok (some found) =>
      if representable : found.Representable then
        match stepped : schedule.step found with
        | .error fault => .error fault
        | .ok resume =>
            match zone.resolve floor found with
            | some instant => .ok (some (instant, resume))
            | none =>
                have := left_of_step searched representable stepped
                advance schedule zone horizon floor resume
      else .ok none
termination_by left position

def next (series : Series) : Except Fault (Option Instant × Series) :=
  match series.position with
  | none => .ok (none, series)
  | some position =>
      match advance series.schedule series.zone series.horizon series.floor position with
      | .error fault => .error fault
      | .ok none => .ok (none, { series with position := none })
      | .ok (some (instant, resume)) =>
          .ok (some instant, { series with position := some resume, floor := instant })

/-- At most so many occurrences, with the series that is left after them. Taking
stops when the series ends. -/
def take (series : Series) : Nat → Except Fault (List Instant × Series)
  | 0 => .ok ([], series)
  | count + 1 =>
      match series.next with
      | .error fault => .error fault
      | .ok (none, ended) => .ok ([], ended)
      | .ok (some instant, rest) =>
          (rest.take count).map fun (later, last) => (instant :: later, last)

def withHorizon (series : Series) (months : UInt32) : Series :=
  { series with horizon := months }

/-- The series from its beginning, with the horizon as it is now. -/
def rewind (series : Series) : Series :=
  { series with position := some series.start, floor := series.origin }

end Series

namespace Expression

def series (expression : Expression) (zone : Zone) (origin : Instant) : Except Fault Series := do
  let schedule ← Schedule.ofExpression expression
  Series.ofSchedule schedule zone origin

/-- The first occurrence after an instant, if one lies within the default horizon. -/
def upcoming (expression : Expression) (zone : Zone) (origin : Instant) :
    Except Fault (Option Instant) := do
  let series ← expression.series zone origin
  let (instant, _) ← series.next
  return instant

/-- The first occurrences after an instant, at most so many. -/
def occurrences (expression : Expression) (zone : Zone) (origin : Instant) (count : Nat) :
    Except Fault (List Instant) := do
  let series ← expression.series zone origin
  let (instants, _) ← series.take count
  return instants

end Expression

end CronSchedule
