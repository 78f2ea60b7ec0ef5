import Recurrence.Calendar.DayCount
import Recurrence.Rule.Days
import Recurrence.Zone

/-!
# Carries

A search walks the wall clock forward. At each time the fields are asked in turn, from the month
down to the second, and the first that does not admit its value names the time at which to go on:
the beginning of the next month, day, hour, minute or second that it admits. An hour that the zone
skips gives up its whole day.

Every carry leads forward (`Rule.lt_of_carry?`), which is what makes a search end.
-/

namespace Recurrence

/-- The first day of the month after a date's. -/
def Date.nextMonth (d : Date) : Date :=
  if d.month = 12 then ⟨d.year + 1, 1, 1⟩ else ⟨d.year, d.month + 1, 1⟩

def Date.midnight (d : Date) : WallClock := .midnight d.dayNumber

namespace WallClock

/-- Midnight at the end of a time's day. -/
def nextDay (w : WallClock) : WallClock := midnight (w.dayNumber + 1)

/-- The beginning of an hour of a time's day. -/
def atHour (w : WallClock) (hour : Nat) : WallClock :=
  ⟨86400 * w.dayNumber + 3600 * hour⟩

/-- The beginning of a minute of a time's hour. -/
def atMinute (w : WallClock) (minute : Nat) : WallClock :=
  ⟨w.startOfHour.seconds + 60 * minute⟩

/-- A second of a time's minute. -/
def atSecond (w : WallClock) (second : Nat) : WallClock :=
  ⟨w.startOfMinute.seconds + second⟩

end WallClock

namespace Rule

/-- Where to go on when the month of a time is not admitted. -/
def monthCarry? (r : Rule) (w : WallClock) : Option WallClock :=
  let d := w.date
  match r.months.next? (d.month - 1) with
  | some month => if month < d.month then none else some (Date.midnight ⟨d.year, month + 1, 1⟩)
  | none => some (Date.midnight ⟨d.year + 1, (r.months.next? 0).getD 0 + 1, 1⟩)

/-- Where to go on when the day of a time is not selected. -/
def dayCarry? (r : Rule) (w : WallClock) : Option WallClock :=
  let d := w.date
  match (r.daySet d.year d.month).next? (d.day - 1) with
  | some day => if day < d.day then none else some (Date.midnight ⟨d.year, d.month, day + 1⟩)
  | none => some d.nextMonth.midnight

/-- Where to go on when the hour of a time is not admitted, or is admitted and skipped by the
zone. -/
def hourCarry? (r : Rule) (z : Zone) (w : WallClock) : Option WallClock :=
  match r.hours.next? w.hour with
  | some hour =>
    if w.hour < hour then some (w.atHour hour)
    else if z.skipsHour w then some w.nextDay
    else none
  | none => some w.nextDay

/-- Where to go on when the minute of a time is not admitted. -/
def minuteCarry? (r : Rule) (w : WallClock) : Option WallClock :=
  match r.minutes.next? w.minute with
  | some minute => if w.minute < minute then some (w.atMinute minute) else none
  | none => some (w.atMinute 60)

/-- Where to go on when the second of a time is not admitted. -/
def secondCarry? (r : Rule) (w : WallClock) : Option WallClock :=
  if r.hasSeconds then
    match r.seconds.next? w.second with
    | some second => if w.second < second then some (w.atSecond second) else none
    | none => some (w.atSecond 60)
  else if w.second = 0 then none
  else some (w.atSecond 60)

/-- Where a search goes on from a time that does not meet a rule; `none` for a time that every field
admits. -/
def carry? (r : Rule) (z : Zone) (w : WallClock) : Option WallClock :=
  r.monthCarry? w <|> r.dayCarry? w <|> r.hourCarry? z w <|> r.minuteCarry? w <|> r.secondCarry? w

/-! ## Every carry leads forward -/

theorem lt_midnight {w : WallClock} {d : Date} (h : w.dayNumber < d.dayNumber) :
    w < d.midnight := by
  simp only [WallClock.dayNumber] at h
  show w.seconds < 86400 * d.dayNumber
  omega

theorem lt_nextDay (w : WallClock) : w < w.nextDay := by
  show w.seconds < 86400 * (w.seconds / 86400 + 1)
  omega

theorem lt_of_monthCarry? {r : Rule} {w next : WallClock} (h : r.monthCarry? w = some next) :
    w < next := by
  unfold monthCarry? at h
  simp only [] at h
  split at h
  · rename_i month _
    split at h
    · simp at h
    · cases h
      have later : w.date.month < month + 1 := by omega
      exact lt_midnight (Date.lt_dayNumber_of_month_lt later (by simp))
  · cases h
    exact lt_midnight (Date.lt_dayNumber_next_year (by simp))

theorem lt_of_dayCarry? {r : Rule} {w next : WallClock} (h : r.dayCarry? w = some next) :
    w < next := by
  unfold dayCarry? at h
  simp only [] at h
  split at h
  · rename_i day _
    split at h
    · simp at h
    · cases h
      exact lt_midnight (Date.lt_dayNumber_of_day_lt (show w.date.day < day + 1 by omega))
  · cases h
    apply lt_midnight
    unfold Date.nextMonth
    split
    · exact Date.lt_dayNumber_next_year (by simp)
    · exact Date.lt_dayNumber_of_month_lt (show w.date.month < w.date.month + 1 by omega) (by simp)

theorem lt_of_hourCarry? {r : Rule} {z : Zone} {w next : WallClock}
    (h : r.hourCarry? z w = some next) : w < next := by
  unfold hourCarry? at h
  split at h
  · rename_i hour _
    split at h
    · rename_i later
      cases h
      simp only [WallClock.hour, WallClock.secondOfDay] at later
      show w.seconds < 86400 * (w.seconds / 86400) + 3600 * (hour : Int)
      omega
    · split at h
      · cases h
        exact lt_nextDay w
      · simp at h
  · cases h
    exact lt_nextDay w

theorem lt_atMinute {w : WallClock} {minute : Nat} (h : w.minute < minute) :
    w < w.atMinute minute := by
  simp only [WallClock.minute, WallClock.secondOfDay] at h
  show w.seconds < w.seconds / 3600 * 3600 + 60 * (minute : Int)
  omega

theorem lt_atSecond {w : WallClock} {second : Nat} (h : w.second < second) :
    w < w.atSecond second := by
  simp only [WallClock.second, WallClock.secondOfDay] at h
  show w.seconds < w.seconds / 60 * 60 + (second : Int)
  omega

theorem lt_of_minuteCarry? {r : Rule} {w next : WallClock} (h : r.minuteCarry? w = some next) :
    w < next := by
  unfold minuteCarry? at h
  split at h
  · split at h
    · rename_i later
      cases h
      exact lt_atMinute later
    · simp at h
  · cases h
    exact lt_atMinute (by unfold WallClock.minute; omega)

theorem lt_of_secondCarry? {r : Rule} {w next : WallClock} (h : r.secondCarry? w = some next) :
    w < next := by
  have bound : w.second < 60 := by unfold WallClock.second; omega
  unfold secondCarry? at h
  split at h
  · split at h
    · split at h
      · rename_i later
        cases h
        exact lt_atSecond later
      · simp at h
    · cases h
      exact lt_atSecond bound
  · split at h
    · simp at h
    · cases h
      exact lt_atSecond bound

/-- A carry leads to a later time. -/
theorem lt_of_carry? {r : Rule} {z : Zone} {w next : WallClock} (h : r.carry? z w = some next) :
    w < next := by
  simp only [carry?, Option.orElse_eq_orElse, Option.orElse_eq_or, Option.or_eq_some_iff] at h
  rcases h with h | ⟨_, h | ⟨_, h | ⟨_, h | ⟨_, h⟩⟩⟩⟩
  · exact lt_of_monthCarry? h
  · exact lt_of_dayCarry? h
  · exact lt_of_hourCarry? h
  · exact lt_of_minuteCarry? h
  · exact lt_of_secondCarry? h

end Rule

end Recurrence
