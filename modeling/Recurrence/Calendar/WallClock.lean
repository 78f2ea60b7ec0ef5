import Recurrence.Calendar.Date

/-!
# Wall-clock time

A wall-clock time is a date and a time of day with no zone, to the second. It is kept as one number,
the seconds since 1970-01-01T00:00:00 on the same wall clock, so that order and steps are those of
the integers; the date and the hour, minute and second are read off it.
-/

namespace Recurrence

/-- A wall-clock time, in seconds since 1970-01-01T00:00:00. Fractions of a second are left out,
since a search only asks for whole seconds: it sets out from the start of a minute or of a second,
and all its steps are whole. Instants do have fractions; for them the clock shows the second that
they fall in. -/
structure WallClock where
  seconds : Int
deriving DecidableEq, Repr

namespace WallClock

instance : LT WallClock := ⟨fun a b => a.seconds < b.seconds⟩

instance : LE WallClock := ⟨fun a b => a.seconds ≤ b.seconds⟩

instance (a b : WallClock) : Decidable (a < b) :=
  inferInstanceAs (Decidable (a.seconds < b.seconds))

instance (a b : WallClock) : Decidable (a ≤ b) :=
  inferInstanceAs (Decidable (a.seconds ≤ b.seconds))

/-- The last second of the calendar, 9999-12-31T23:59:59. -/
def last : WallClock := ⟨253402300799⟩

/-- The wall-clock time at a number of seconds, unless the calendar has ended by then. -/
def upTo? (seconds : Int) : Option WallClock :=
  if seconds ≤ last.seconds then some ⟨seconds⟩ else none

def dayNumber (w : WallClock) : Int := w.seconds / 86400

/-- The seconds since midnight. -/
def secondOfDay (w : WallClock) : Nat := (w.seconds % 86400).toNat

def date (w : WallClock) : Date := .ofDayNumber w.dayNumber

/-- The hour of the day, 0 to 23. -/
def hour (w : WallClock) : Nat := w.secondOfDay / 3600

/-- The minute of the hour, 0 to 59. -/
def minute (w : WallClock) : Nat := w.secondOfDay / 60 % 60

/-- The second of the minute, 0 to 59. -/
def second (w : WallClock) : Nat := w.secondOfDay % 60

/-- Midnight at the beginning of a day. -/
def midnight (dayNumber : Int) : WallClock := ⟨86400 * dayNumber⟩

def startOfHour (w : WallClock) : WallClock := ⟨w.seconds / 3600 * 3600⟩

def startOfMinute (w : WallClock) : WallClock := ⟨w.seconds / 60 * 60⟩

end WallClock

end Recurrence
