import Recurrence.BitSet

/-!
# Recurrence rules

A rule holds one bit set per field, with all defaults applied. Days are selected by four sets
together: `days` and `lastDays` are alternatives, `strictWeekdays` narrows what these two select,
and `weekdays` adds further days.
-/

namespace Recurrence

/-- A recurrence rule: the times of the wall clock at which something recurs. -/
structure Rule where
  /-- Bit `i` is month `i + 1`. -/
  months : BitSet 16
  /-- Bit `i` is day `i + 1` of the month. -/
  days : BitSet 32
  /-- Bit 30 is the last day of the month, bit 29 the one before it, and so on. -/
  lastDays : BitSet 32
  /-- Bit `i` is weekday `i`, Sunday being 0: these days are selected besides the others. -/
  weekdays : BitSet 8
  /-- Bit `i` is weekday `i`: the days that `days` and `lastDays` select must fall on one of these,
  unless the set is empty. -/
  strictWeekdays : BitSet 8
  /-- Bit `i` is hour `i`. -/
  hours : BitSet 32
  /-- Bit `i` is minute `i`. -/
  minutes : BitSet 64
  /-- Bit `i` is second `i`; an empty set means the first second of the minute only. -/
  seconds : BitSet 64
deriving DecidableEq, Repr

namespace Rule

/-- Whether a rule tells single seconds apart. -/
def hasSeconds (r : Rule) : Bool := r.seconds ≠ 0

/-- The distance of the closest two times that a rule can tell apart, in seconds. -/
def unit (r : Rule) : Int := if r.hasSeconds then 1 else 60

end Rule

end Recurrence
