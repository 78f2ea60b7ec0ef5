import Recurrence.Field.Value
import Recurrence.Expression.Token

/-!
# Items of a column

An item is `marker? range ("/" step)?`: the range is a wildcard, a value or two values joined by a
hyphen. A marker moves the item to another field: `^` from days to days counted from the end, `&`
from weekdays to narrowing weekdays.

Reading an item (`Item.read`) and giving it its set (`Item.set`) are two stages. What fails in the
first is the fault of the column, what fails in the second that of the field the item counts for.
-/

namespace Recurrence

namespace Marker

/-- The column in which a marker may stand. -/
def column : Marker → Field
  | fromEnd => .day
  | narrowing => .weekday

/-- The field that a marked item counts for. -/
def target : Marker → Field
  | fromEnd => .lastDay
  | narrowing => .strictWeekday

def ofSign? (c : Char) : Option Marker :=
  [fromEnd, narrowing].find? (·.sign = c)

end Marker

namespace Expression

/-- The values that an item names, before its step. -/
inductive Extent
  | any
  | one (value : Nat)
  | between (low high : Nat)
deriving DecidableEq, Repr

/-- An item of a column, as it is written. -/
structure Item where
  /-- The field that the item counts for. -/
  target : Field
  extent : Extent
  step : Option Nat
deriving DecidableEq, Repr

/-- The largest step that can be read. -/
def largestStep : Nat := 4294967295

/-- Whether some text is one of the two wildcards. -/
def isWildcard (text : List Char) : Bool :=
  text = ['*'] || text = ['?']

/-- Takes the marker off an item of a column. -/
def readMarker (column : Field) (text : List Char) : Except Fault (Option Marker × List Char) :=
  match text.head?.bind Marker.ofSign? with
  | none => .ok (none, text)
  | some marker =>
    if marker.column = column then .ok (some marker, text.tail)
    else .error (.misplacedMarker marker)

/-- Reads the step behind a slash. -/
def readStep (text : List Char) : Except Fault Nat :=
  match Decimal.readUpTo? largestStep text with
  | none => .error (.notANumber (String.ofList text))
  | some 0 => .error .zeroStep
  | some step => .ok step

/-- Takes the step off an item. -/
def cutStep (text : List Char) : Except Fault (List Char × Option Nat) :=
  match cutAt? '/' text with
  | none => .ok (text, none)
  | some (range, step) => (readStep step).map fun step => (range, some step)

/-- Reads what is left of an item of a field without marker and step. -/
def readExtent (target : Field) (marker : Option Marker) (text : List Char) : Except Fault Extent :=
  if isWildcard text then
    match marker with
    | none => .ok .any
    | some marker => .error (.markedWildcard marker)
  else
    match cutAt? '-' text with
    | none => (target.literal text).map .one
    | some (low, high) =>
      if isWildcard low || isWildcard high then .error .wildcardRange
      else do
        let low ← target.literal low
        let high ← target.literal high
        .ok (.between low high)

namespace Item

def read (column : Field) (text : List Char) : Except Fault Item :=
  if text = [] then .error .empty
  else do
    let (marker, text) ← readMarker column text
    let target := (marker.map Marker.target).getD column
    let (range, step) ← cutStep text
    let extent ← readExtent target marker range
    .ok ⟨target, extent, step⟩

/-- The set that an item adds to its field. A lone wildcard restricts nothing: it stands for every
value, save that for days and weekdays it leaves the choice to the other of the two. A value with a
step runs on to the field's largest value. -/
def set (item : Item) : Except Fault (BitSet 64) :=
  let f := item.target
  match item.extent, item.step with
  | .any, none => .ok (if f = .day ∨ f = .weekday then 0 else f.allValues)
  | .any, some step => f.rangeSet f.least f.greatest step
  | .one v, none => f.rangeSet v v 0
  | .one v, some step => f.rangeSet v f.greatest step
  | .between low high, none => f.rangeSet low high (if low < high then 1 else 0)
  | .between low high, some step => f.rangeSet low high step

end Item

/-- The field that some text of a column counts for and the set that it adds there, or the field to
blame and the fault. -/
def itemSet (column : Field) (text : List Char) : Except (Field × Fault) (Field × BitSet 64) :=
  match Item.read column text with
  | .error fault => .error (column, fault)
  | .ok item =>
    match item.set with
    | .error fault => .error (item.target, fault)
    | .ok set => .ok (item.target, set)

end Expression

end Recurrence
