import Recurrence.Rule.Basic
import Recurrence.Calendar.Date

/-!
# The days that a rule selects

The day sets of a rule are brought into one form, bit `i` for day `i + 1` of a given month: weekdays
by turning the week to the weekday of the first day and repeating it, days from the end by moving
the set down until its top bit is the last day. A month's selection is then a few word operations.
-/

namespace Recurrence

namespace BitSet

/-- The first `length` days of a month. -/
def firstDays (length : Nat) : BitSet 32 :=
  BitVec.allOnes 32 >>> (32 - length)

/-- The days that fall on some weekdays, in a month whose first day falls on `first`. Day `d` falls
on weekday `first + d - 1`, so the week is turned by `first` and then repeats; days past the end of
the month are not cut off. -/
def ofWeekdays (weekdays : BitSet 8) (first : Nat) : BitSet 32 :=
  (((weekdays.setWidth 7).rotateRight first).replicate 5).setWidth 32

/-- The days of a month of `length` days that a set counted from the end stands for. -/
def ofLastDays (lastDays : BitSet 32) (length : Nat) : BitSet 32 :=
  (lastDays >>> (31 - length)) &&& firstDays length

end BitSet

namespace Rule

open BitSet

/-- The days that a rule selects in a month of `length` days whose first day falls on weekday
`first`. -/
def daysOfMonth (r : Rule) (length first : Nat) : BitSet 32 :=
  let anchored := (r.days &&& firstDays length) ||| ofLastDays r.lastDays length
  let anchored :=
    if r.strictWeekdays = 0 then anchored else anchored &&& ofWeekdays r.strictWeekdays first
  (anchored ||| ofWeekdays r.weekdays first) &&& firstDays length

/-- The days that a rule selects in a month of the calendar, bit `i` for day `i + 1`; none in a
month outside it. The months of the rule play no part. -/
def daySet (r : Rule) (year month : Int) : BitSet 32 :=
  if Date.IsMonth year month then
    let first : Date := ⟨year, month.toNat, 1⟩
    r.daysOfMonth (daysInMonth year month.toNat) (weekdayOfDay first.dayNumber)
  else 0

/-- Whether a rule can ever be met. Weekdays alone always can, and every day of the month falls on
every weekday some year; what cannot be met is a day that no admitted month is long enough for, so
the months are tried in a leap year. -/
def isFeasible (r : Rule) : Bool :=
  if r.weekdays ≠ 0 then r.months ≠ 0
  else (monthLengths true).zipIdx.any fun (length, month) =>
    r.months.getLsbD month &&
      (r.days &&& firstDays length) ||| ofLastDays r.lastDays length ≠ 0

end Rule

end Recurrence
