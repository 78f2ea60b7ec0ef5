import Recurrence.Rule.Basic
import Recurrence.Field.Basic

/-!
# Selections

A selection gathers the values chosen for each field, in any order, and becomes a rule once, when
all of them are known: `Selection.toRule` gives the fields that were left empty their meaning.
Gathering is union, so that neither the order nor the repetition of choices matters.
-/

namespace Recurrence

/-- The values chosen so far, one bit set per field. -/
def Selection := Field → BitSet 64

namespace Selection

def empty : Selection := fun _ => 0

def insert (s : Selection) (f : Field) (set : BitSet 64) : Selection :=
  fun g => if g = f then s g ||| (set &&& f.allValues) else s g

/-- A weekday set over the values 0 to 7, with 7 taken for Sunday like 0. -/
def foldSunday (set : BitSet 64) : BitSet 8 :=
  let week := set.setWidth 8
  (week &&& 0x7f) ||| (week >>> 7)

/-- A set, or every value of the field when it is empty. -/
def orAll (f : Field) (set : BitSet 64) : BitSet 64 :=
  if set = 0 then f.allValues else set

/-- The rule of a selection. Months, hours and minutes that were not chosen are unrestricted.
Without days and last days there is nothing to narrow, so narrowing weekdays are weekdays like the
others; and without any weekdays either, every day is selected. -/
def toRule (s : Selection) : Rule :=
  let days := (s .day).setWidth 32
  let lastDays := (s .lastDay).setWidth 32
  let weekdays := foldSunday (s .weekday)
  let strict := foldSunday (s .strictWeekday)
  let unanchored := days = 0 ∧ lastDays = 0
  { months := (orAll .month (s .month)).setWidth 16
    days :=
      if unanchored ∧ weekdays = 0 ∧ strict = 0 then Field.day.allValues.setWidth 32 else days
    lastDays := lastDays
    weekdays := if unanchored then weekdays ||| strict else weekdays
    strictWeekdays := if unanchored then 0 else strict
    hours := (orAll .hour (s .hour)).setWidth 32
    minutes := orAll .minute (s .minute)
    seconds := s .second }

end Selection

end Recurrence
