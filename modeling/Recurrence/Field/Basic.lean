import Recurrence.BitSet

/-!
# Fields of a recurrence rule

A rule constrains eight dimensions of calendar time. Each field has a range of values and a place
for each value in its bit set: times of day count from zero, days and months from one, and days from
the end of the month fill the set from its top, so that the last day sits at one fixed bit for every
month length.
-/

namespace Recurrence

/-- A constrained dimension of a rule. -/
inductive Field
  | second
  | minute
  | hour
  | day
  /-- Days counted from the end of the month; 1 is the last day. -/
  | lastDay
  | month
  /-- Weekdays that add days to the selection; 0 and 7 are Sunday. -/
  | weekday
  /-- Weekdays that narrow the selected days. -/
  | strictWeekday
deriving DecidableEq, Repr

namespace Field

def all : List Field :=
  [second, minute, hour, day, lastDay, month, weekday, strictWeekday]

/-- The name of a field in messages. -/
def label : Field → String
  | second => "second"
  | minute => "minute"
  | hour => "hour"
  | day => "day-of-month"
  | lastDay => "last-day-of-month"
  | month => "month"
  | weekday => "weekday"
  | strictWeekday => "restricted weekday"

def least : Field → Nat
  | second | minute | hour | weekday | strictWeekday => 0
  | day | lastDay | month => 1

def greatest : Field → Nat
  | second | minute => 59
  | hour => 23
  | day | lastDay => 31
  | month => 12
  | weekday | strictWeekday => 7

/-- The three-letter names that stand for values of a field, from its smallest value on. -/
def names : Field → List String
  | month => ["jan", "feb", "mar", "apr", "may", "jun", "jul", "aug", "sep", "oct", "nov", "dec"]
  | weekday | strictWeekday => ["sun", "mon", "tue", "wed", "thu", "fri", "sat"]
  | _ => []

/-- The bit set of the values `low`, `low + step`, … up to `high` of a field. A step of zero selects
`low` alone. -/
def encode (f : Field) (low high step : Nat) : BitSet 64 :=
  match f with
  | day | month => .progression (low - 1) (high - 1) step
  | lastDay => .progressionFromEnd low high step 31
  | _ => .progression low high step

/-- The bit set of every value of a field. -/
def allValues (f : Field) : BitSet 64 :=
  f.encode f.least f.greatest 1

/-- The values that a bit set of a field stands for, in ascending order. -/
def decode {w : Nat} (f : Field) (set : BitSet w) : List Nat :=
  match f with
  | day | month => set.members.map (· + 1)
  | lastDay => (set.members.map (31 - ·)).reverse
  | _ => set.members

end Field

end Recurrence
