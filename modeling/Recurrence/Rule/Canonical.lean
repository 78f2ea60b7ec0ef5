import Recurrence.Rule.Basic
import Recurrence.Field.Fault
import Recurrence.Text.Decimal

/-!
# The canonical expression of a rule

A rule is written as an expression of five columns, or of six with seconds first when the rule has
seconds. Each column lists the longest runs of its values in ascending order, and a column that
restricts nothing is a `*`. The text reads back as the same rule: for days this needs two kinds of
`*`, one for a rule without any days of its own and one for the rule that selects every day.
-/

namespace Recurrence

/-- Writes a run of values with a sign before it. -/
def Run.write (sign : List Char) (r : Run) : List Char :=
  if r.first = r.last then sign ++ Decimal.write r.first
  else sign ++ Decimal.write r.first ++ ['-'] ++ Decimal.write r.last

/-- The items of a column for ascending values, each with a sign before it. -/
def writeItems (sign : List Char) (values : List Nat) : List (List Char) :=
  (Run.group values).map (Run.write sign)

namespace Rule

/-- The column of a field that stands on its own. -/
def plainColumn (f : Field) (set : BitSet 64) : List Char :=
  if set = f.allValues then ['*']
  else List.intercalate [','] (writeItems [] (f.decode set))

/-- Whether a rule selects every day and nothing narrows or adds. -/
def selectsEveryDay (r : Rule) : Bool :=
  r.days.setWidth 64 = Field.day.allValues ∧ r.lastDays = 0 ∧ r.weekdays = 0 ∧ r.strictWeekdays = 0

/-- The column of days: the days, then the days from the end. -/
def dayColumn (r : Rule) : List Char :=
  if r.selectsEveryDay ∨ r.days = 0 ∧ r.lastDays = 0 then ['*']
  else
    List.intercalate [','] <|
      writeItems [] (Field.day.decode r.days) ++
        writeItems [Marker.fromEnd.sign] (Field.lastDay.decode r.lastDays)

/-- The column of weekdays: the weekdays, then the narrowing ones. -/
def weekdayColumn (r : Rule) : List Char :=
  if r.weekdays = 0 ∧ r.strictWeekdays = 0 then ['*']
  else
    List.intercalate [','] <|
      writeItems [] (Field.weekday.decode r.weekdays) ++
        writeItems [Marker.narrowing.sign] (Field.strictWeekday.decode r.strictWeekdays)

def columns (r : Rule) : List (List Char) :=
  (if r.hasSeconds then [plainColumn .second r.seconds] else []) ++
    [plainColumn .minute r.minutes,
      plainColumn .hour (r.hours.setWidth 64),
      r.dayColumn,
      plainColumn .month (r.months.setWidth 64),
      r.weekdayColumn]

def canonical (r : Rule) : String :=
  String.ofList (List.intercalate [' '] r.columns)

end Rule

end Recurrence
