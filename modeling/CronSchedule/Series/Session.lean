import CronSchedule.Series.Basic

/-!
# Sessions over several series

A session keeps numbered series, one of which is current. Commands act on the
current one only; a clone becomes a series of its own, and what happens to one
series is never seen by another.
-/

namespace CronSchedule

set_option autoImplicit false

inductive Command where
  | next
  | take (count : Nat)
  | rewind
  | horizon (months : UInt32)
  /-- Adds a copy of the current series under the next free number. -/
  | clone
  /-- Makes another series the current one. -/
  | select (slot : Nat)
  deriving DecidableEq, Repr

inductive Reply where
  | occurrence (instant : Option Instant)
  | occurrences (instants : List Instant)
  | done
  | created (slot : Nat)
  | noSuchSlot
  deriving DecidableEq, Repr

/-- The series by number, and the number of the current one. -/
structure Session where
  slots : List Series
  current : Nat
  deriving DecidableEq, Repr

namespace Session

def ofSeries (series : Series) : Session := ⟨[series], 0⟩

def put (session : Session) (series : Series) : Session :=
  { session with slots := session.slots.set session.current series }

def runOn (session : Session) (series : Series) : Command → Except Fault (Reply × Session)
  | .next => series.next.map fun (instant, rest) => (.occurrence instant, session.put rest)
  | .take count =>
      (series.take count).map fun (instants, rest) => (.occurrences instants, session.put rest)
  | .rewind => .ok (.done, session.put series.rewind)
  | .horizon months => .ok (.done, session.put (series.withHorizon months))
  | .clone =>
      .ok (.created session.slots.length, { session with slots := session.slots ++ [series] })
  | .select slot =>
      if slot < session.slots.length then .ok (.done, { session with current := slot })
      else .ok (.noSuchSlot, session)

def run (session : Session) (command : Command) : Except Fault (Reply × Session) :=
  match session.slots[session.current]? with
  | some series => session.runOn series command
  | none => .ok (.noSuchSlot, session)

def runAll (session : Session) : List Command → Except Fault (List Reply × Session)
  | [] => .ok ([], session)
  | command :: later =>
      match session.run command with
      | .error fault => .error fault
      | .ok (reply, after) =>
          (after.runAll later).map fun (replies, last) => (reply :: replies, last)

end Session

end CronSchedule
