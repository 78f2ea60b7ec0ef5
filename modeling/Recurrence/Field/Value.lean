import Recurrence.Field.Fault
import Recurrence.Text.Decimal

/-!
# Values of a field

Two ways into a field: `Field.literal` reads one value from text, a number or a name, and
`Field.check` tests a range with a step against the field's bounds. Reading alone does not test
bounds, so that a value outside them is reported as such and not as unreadable. A range that passes
becomes a bit set by `Field.rangeSet`.
-/

namespace Recurrence.Field

/-- The largest number that can be read at all; longer digit strings are refused as text. -/
def largestLiteral : Nat := 9223372036854775807

/-- Reads one value: ASCII digits, or one of the field's names in any mix of ASCII cases. -/
def literal (f : Field) (text : List Char) : Except Fault Nat :=
  if text = [] then
    .error .empty
  else if text.all Char.isDigit then
    match Decimal.readUpTo? largestLiteral text with
    | some n => .ok n
    | none => .error (.notANumber (String.ofList text))
  else
    match f.names.findIdx? fun name => name.toList == text.map Char.toLower with
    | some i => .ok (i + f.least)
    | none => .error (.notANumber (String.ofList text))

def checkBound (f : Field) (value : Int) : Except Fault Nat :=
  if value < f.least then .error (.belowMinimum value f.least)
  else if (f.greatest : Int) < value then .error (.aboveMaximum value f.greatest)
  else .ok value.toNat

/-- Tests the range from `low` to `high` by `step`: both bounds, the lower one first, then their
order, then that the step does not leave the range. A step of zero selects `low` alone, and a range
of one value takes any step. -/
def check (f : Field) (low high : Int) (step : Nat) : Except Fault (Nat × Nat) := do
  let low ← f.checkBound low
  let high ← f.checkBound high
  if high < low then .error (.invertedRange low high)
  else if high - low < step ∧ high ≠ low then .error (.stepTooLarge step (high - low))
  else .ok (low, high)

/-- The bit set of a range, once it is tested. -/
def rangeSet (f : Field) (low high : Int) (step : Nat) : Except Fault (BitSet 64) := do
  let (low, high) ← f.check low high step
  .ok (f.encode low high step)

end Recurrence.Field
