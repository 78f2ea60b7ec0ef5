import Recurrence.Calendar.WallClock
import Recurrence.Instant

/-!
# Time zones

A zone says which offset from UTC is in force at each instant: an initial offset and a list of later
changes. Read the other way, from the wall clock, a time can have no instant, where the clock jumped
forward over it, or two, where the clock was set back and the same hour runs again. `Zone.reading`
tells the three cases apart and `Zone.instants` lists the instants.
-/

namespace Recurrence

/-- From the second `start` on, a zone is `offset` seconds east of UTC. -/
structure Transition where
  start : Int
  offset : Int
deriving DecidableEq, Repr

/-- An initial offset and its changes, in ascending order. -/
structure Zone where
  initial : Int
  transitions : List Transition
deriving DecidableEq, Repr

/-- The offsets with which a wall-clock time can be read. -/
inductive Reading
  /-- One offset is in force at this time. -/
  | single (offset : Int)
  /-- The clock jumps over this time. -/
  | gap (before after : Int)
  /-- This time comes twice. -/
  | fold (before after : Int)
deriving DecidableEq, Repr

namespace Reading

/-- The offsets under which the wall clock really shows the time, the earlier instant's first. -/
def offsets : Reading → List Int
  | single offset => [offset]
  | gap _ _ => []
  | fold before after => [before, after]

/-- The offset to read a time with when an instant must be named: the one before the change. -/
def leading : Reading → Int
  | single offset => offset
  | gap before _ => before
  | fold before _ => before

end Reading

namespace Zone

/-- A zone that never changes its offset. -/
def fixed (offset : Int) : Zone := ⟨offset, []⟩

def utc : Zone := fixed 0

/-- The offset in force at a second, after the changes of a list. -/
def offsetFrom (offset : Int) : List Transition → Int → Int
  | [], _ => offset
  | change :: rest, seconds =>
    if seconds < change.start then offset else offsetFrom change.offset rest seconds

def offsetAt (z : Zone) (t : Instant) : Int :=
  offsetFrom z.initial z.transitions t.seconds

/-- What the clock on the wall shows at an instant. -/
def wallClock (z : Zone) (t : Instant) : WallClock :=
  ⟨t.seconds + z.offsetAt t⟩

/-- How a time of the wall clock reads, after the changes of a list. Between the two clocks' views
of a change the time is missing when the clock goes forward and doubled when it goes back. -/
def readingFrom (offset : Int) : List Transition → Int → Reading
  | [], _ => .single offset
  | change :: rest, seconds =>
    if seconds < change.start + min offset change.offset then .single offset
    else if seconds < change.start + max offset change.offset then
      if offset < change.offset then .gap offset change.offset else .fold offset change.offset
    else readingFrom change.offset rest seconds

def reading (z : Zone) (w : WallClock) : Reading :=
  readingFrom z.initial z.transitions w.seconds

/-- The instants at which the wall clock shows a time, in ascending order. -/
def instants (z : Zone) (w : WallClock) : List Instant :=
  (z.reading w).offsets.filterMap fun offset => Instant.atSecond? (w.seconds - offset)

/-- The first instant later than `after` at which the wall clock shows a time. -/
def firstInstant? (z : Zone) (w : WallClock) (after : Instant) : Option Instant :=
  (z.instants w).find? (after < ·)

/-- The instant that stands for a time of the wall clock: a missing time moves forward by the jump
and a doubled one is taken the first time. -/
def nominalInstant? (z : Zone) (w : WallClock) : Option Instant :=
  Instant.atSecond? (w.seconds - (z.reading w).leading)

/-- Whether the instant that stands for a time falls in another hour of the day. -/
def leavesHour (z : Zone) (w : WallClock) : Bool :=
  match z.nominalInstant? w with
  | some t => (z.wallClock t).hour ≠ w.hour
  | none => false

/-- Whether the clock jumps over the whole hour of a time, judged by the hour's first and last
second. -/
def skipsHour (z : Zone) (w : WallClock) : Bool :=
  z.leavesHour w.startOfHour && z.leavesHour ⟨w.startOfHour.seconds + 3599⟩

/-- For an instant whose wall-clock time will come again, the time from which the clock then
starts. -/
def rewound? (z : Zone) (t : Instant) : Option WallClock :=
  match z.reading (z.wallClock t) with
  | .fold before after => if z.offsetAt t = before then some ⟨t.seconds + after⟩ else none
  | _ => none

end Zone

end Recurrence
