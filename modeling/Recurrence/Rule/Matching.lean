import Recurrence.Rule.Days
import Recurrence.Moment

/-!
# When a rule is met

A rule is met by a wall-clock time when each of its fields admits that time's value. Parts of a
second play no part, and a rule without seconds is met in the first second of a minute only.
-/

namespace Recurrence.Rule

def admitsSecond (r : Rule) (second : Nat) : Bool :=
  if r.hasSeconds then r.seconds.getLsbD second else second = 0

def admitsDate (r : Rule) (d : Date) : Bool :=
  r.months.getLsbD (d.month - 1) && (r.daySet d.year d.month).getLsbD (d.day - 1)

/-- Whether a wall-clock time meets a rule. -/
def admits (r : Rule) (w : WallClock) : Bool :=
  r.admitsDate w.date && r.hours.getLsbD w.hour && r.minutes.getLsbD w.minute &&
    r.admitsSecond w.second

/-- Whether a moment, read in its own zone, meets a rule. -/
def isMetBy (r : Rule) (m : Moment) : Bool :=
  r.admits m.wallClock

end Recurrence.Rule
