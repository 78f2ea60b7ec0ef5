/-!
# Dates of the proleptic Gregorian calendar

A date is a year (astronomical, so zero and negative years exist), a month and a day. Days are also
counted in one line, day zero being 1970-01-01, and all arithmetic happens there: `Date.dayNumber`
and `Date.ofDayNumber` go between the two forms.

The year of a day is found from the mean length of a year and mended by at most one year; the month
by walking the table of month lengths.
-/

namespace Recurrence

/-- Every fourth year is a leap year, save the centuries that four hundred does not divide. -/
def isLeapYear (year : Int) : Bool :=
  year % 4 = 0 ∧ (year % 100 ≠ 0 ∨ year % 400 = 0)

def monthLengths (leap : Bool) : List Nat :=
  [31, if leap then 29 else 28, 31, 30, 31, 30, 31, 31, 30, 31, 30, 31]

/-- The number of days in a month; `month` runs from 1 to 12. -/
def daysInMonth (year : Int) (month : Nat) : Nat :=
  (monthLengths (isLeapYear year))[month - 1]?.getD 0

/-- The days from 0001-01-01 to the first day of a year, negative for earlier years. -/
def daysBeforeYear (year : Int) : Int :=
  365 * (year - 1) + (year - 1) / 4 - (year - 1) / 100 + (year - 1) / 400

/-- The length of a row of blocks of the given lengths. -/
def totalLength : List Nat → Nat
  | [] => 0
  | length :: rest => length + totalLength rest

def daysInYear (year : Int) : Nat :=
  totalLength (monthLengths (isLeapYear year))

/-- The days of a year that come before a month. -/
def daysBeforeMonth (year : Int) (month : Nat) : Nat :=
  totalLength ((monthLengths (isLeapYear year)).take (month - 1))

/-- The year that holds the day `n` days after 0001-01-01. -/
def yearOfDay (n : Int) : Int :=
  let year := 400 * n / 146097 + 1
  if n < daysBeforeYear year then year - 1
  else if daysBeforeYear (year + 1) ≤ n then year + 1
  else year

/-- Finds the block, in a row of blocks of the given lengths, that holds position `k`, and the
position within it. -/
def locateIn : List Nat → Nat → Nat × Nat
  | [], k => (0, k)
  | length :: rest, k =>
    if k < length then (0, k)
    else
      let (i, r) := locateIn rest (k - length)
      (i + 1, r)

structure Date where
  year : Int
  month : Nat
  day : Nat
deriving DecidableEq, Repr

namespace Date

/-- The first and the last year of the calendar. -/
def firstYear : Int := -9999

@[inherit_doc firstYear]
def lastYear : Int := 9999

/-- The days from 0001-01-01 to 1970-01-01. -/
def epoch : Int := 719162

/-- A year and month of the calendar. -/
def IsMonth (year month : Int) : Prop :=
  firstYear ≤ year ∧ year ≤ lastYear ∧ 1 ≤ month ∧ month ≤ 12

instance (year month : Int) : Decidable (IsMonth year month) :=
  inferInstanceAs (Decidable (_ ∧ _))

/-- A date of the calendar. -/
def IsValid (d : Date) : Prop :=
  IsMonth d.year d.month ∧ 1 ≤ d.day ∧ d.day ≤ daysInMonth d.year d.month

instance (d : Date) : Decidable d.IsValid :=
  inferInstanceAs (Decidable (_ ∧ _))

/-- The days from 1970-01-01 to a date. -/
def dayNumber (d : Date) : Int :=
  daysBeforeYear d.year + daysBeforeMonth d.year d.month + d.day - 1 - epoch

def ofDayNumber (n : Int) : Date :=
  let year := yearOfDay (n + epoch)
  let (month, day) :=
    locateIn (monthLengths (isLeapYear year)) (n + epoch - daysBeforeYear year).toNat
  ⟨year, month + 1, day + 1⟩

end Date

/-- The weekday of a day number, Sunday being 0. -/
def weekdayOfDay (n : Int) : Nat :=
  ((n + 4) % 7).toNat

end Recurrence
