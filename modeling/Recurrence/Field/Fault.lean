import Recurrence.Field.Basic

/-!
# What can be wrong with a value

A value of a field can lie outside the field's range, span the wrong way, or not be readable at all.
A `Fault` is one such cause; its wording is `Fault.message`.
-/

namespace Recurrence

/-- A sign in front of an item that changes the field it counts for. -/
inductive Marker
  /-- Days counted from the end of the month. -/
  | fromEnd
  /-- Weekdays that narrow the selection. -/
  | narrowing
deriving DecidableEq, Repr

def Marker.sign : Marker → Char
  | .fromEnd => '^'
  | .narrowing => '&'

/-- The cause for which a value, a range or the text of one is refused. -/
inductive Fault
  | belowMinimum (value : Int) (least : Nat)
  | aboveMaximum (value : Int) (greatest : Nat)
  | notANumber (text : String)
  | invertedRange (low high : Nat)
  | zeroStep
  | stepTooLarge (step span : Nat)
  | wildcardRange
  | markedWildcard (marker : Marker)
  | empty
  | misplacedMarker (marker : Marker)
deriving DecidableEq, Repr

def Fault.message : Fault → String
  | belowMinimum value least => s!"value {value} is below the minimum of {least}"
  | aboveMaximum value greatest => s!"value {value} is above the maximum of {greatest}"
  | notANumber text => s!"'{text}' is not a number or a known name"
  | invertedRange low high => s!"range start {low} is greater than range end {high}"
  | zeroStep => "step must be greater than zero"
  | stepTooLarge step span => s!"step {step} exceeds the range span of {span}"
  | wildcardRange => "wildcard cannot be combined with a range"
  | markedWildcard marker => s!"wildcard cannot be marked with '{marker.sign}'"
  | empty => "missing value"
  | misplacedMarker marker => s!"'{marker.sign}' is not allowed in this field"

end Recurrence
