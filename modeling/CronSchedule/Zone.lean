import CronSchedule.Calendar.Moment

/-!
# Instants and time zones

An instant is a point of universal time. A zone tells the offset of its clocks
from universal time at every instant. A wall-clock moment may then stand for one
instant, for several when clocks were set back, or for none when they were set
forward: `Zone.lookup` tells which. `Zone.resolve` picks the instant that keeps a
series going forward.
-/

namespace CronSchedule

set_option autoImplicit false

/-- Universal time: seconds since the beginning of year 1, and nanoseconds. A leap
second counts as more than a thousand million nanoseconds of the second before. -/
structure Instant where
  seconds : Int
  nanoseconds : Nat
  deriving DecidableEq, Repr

namespace Instant

instance : LT Instant where
  lt first second :=
    first.seconds < second.seconds ∨
      first.seconds = second.seconds ∧ first.nanoseconds < second.nanoseconds

instance : LE Instant where
  le first second := ¬ second < first

theorem lt_iff (first second : Instant) :
    first < second ↔
      first.seconds < second.seconds ∨
        first.seconds = second.seconds ∧ first.nanoseconds < second.nanoseconds := Iff.rfl

theorem le_iff (first second : Instant) : first ≤ second ↔ ¬ second < first := Iff.rfl

instance (first second : Instant) : Decidable (first < second) :=
  decidable_of_iff _ (lt_iff first second).symm

instance (first second : Instant) : Decidable (first ≤ second) :=
  decidable_of_iff _ (le_iff first second).symm

/-- The instant at which a clock without offset shows the moment. -/
def ofUniversal (moment : Moment) (nanoseconds : Nat) : Instant :=
  ⟨moment.secondCount, nanoseconds⟩

end Instant

/-- Whether the second at this count belongs to a representable year. -/
def InSpan (count : Int) : Prop :=
  daysBeforeYear Moment.firstYear * 86400 ≤ count ∧
    count < daysBeforeYear (Moment.lastYear + 1) * 86400

instance (count : Int) : Decidable (InSpan count) := by
  unfold InSpan
  infer_instance

/-- The transitions are listed in ascending order; each offset holds from its
instant on, and the initial one before the first. Offsets are in seconds, east
of universal time positive. -/
structure Zone where
  initial : Int
  transitions : List (Instant × Int)
  deriving DecidableEq, Repr

namespace Zone

def fixed (offset : Int) : Zone := ⟨offset, []⟩

def utc : Zone := fixed 0

/-- The offset in force at an instant: that of the last transition not after it. -/
def offsetAt (zone : Zone) (instant : Instant) : Int :=
  zone.transitions.foldl
    (fun current transition => if transition.1 ≤ instant then transition.2 else current)
    zone.initial

def offsets (zone : Zone) : List Int := zone.initial :: zone.transitions.map Prod.snd

def localCount (zone : Zone) (instant : Instant) : Int :=
  instant.seconds + zone.offsetAt instant

/-- What the local clock shows, nanoseconds apart. -/
def localMoment (zone : Zone) (instant : Instant) : Moment :=
  Moment.ofSecondCount (zone.localCount instant)

/-- The seconds of universal time at which the local clock shows a moment. -/
def candidates (zone : Zone) (moment : Moment) : List Int :=
  (zone.offsets.map fun offset => moment.secondCount - offset).filter fun seconds =>
    InSpan seconds ∧ zone.localCount ⟨seconds, 0⟩ = moment.secondCount

/-- What a zone knows of a local moment: it stands for no instant, for one, or for several,
of which the earliest and the latest are told. -/
inductive Lookup where
  | nonexistent
  | single (instant : Instant)
  | ambiguous (earliest latest : Instant)
  deriving DecidableEq, Repr

namespace Lookup

/-- What is told of candidates by the least and the greatest of them. -/
def ofBounds : Option Int → Option Int → Lookup
  | some least, some greatest =>
      if least = greatest then single ⟨least, 0⟩
      else ambiguous ⟨least, 0⟩ ⟨greatest, 0⟩
  | _, _ => nonexistent

def ends : Lookup → Option (Instant × Instant)
  | nonexistent => none
  | single instant => some (instant, instant)
  | ambiguous earliest latest => some (earliest, latest)

/-- The earliest instant if it comes after `floor`, otherwise the latest if that does. -/
def after (floor : Instant) (lookup : Lookup) : Option Instant :=
  match lookup.ends with
  | none => none
  | some (earliest, latest) =>
      if floor < earliest then some earliest
      else if floor < latest then some latest
      else none

end Lookup

/-- The lookup of a local time, which is all that an advance asks of the zone: nothing in the
gap of a clock set forward, and the two ends of the candidates where clocks were set back.
Candidates in between are passed over. -/
def lookup (zone : Zone) (moment : Moment) : Lookup :=
  .ofBounds (zone.candidates moment).min? (zone.candidates moment).max?

/-- The instant of a local moment that keeps a series going after `floor`. -/
def resolve (zone : Zone) (floor : Instant) (moment : Moment) : Option Instant :=
  (zone.lookup moment).after floor

end Zone

end CronSchedule
