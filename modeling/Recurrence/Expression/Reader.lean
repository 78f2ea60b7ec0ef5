import Recurrence.Expression.Error
import Recurrence.Expression.Item
import Recurrence.Expression.Options
import Recurrence.Expression.Preset

/-!
# Reading expressions

An expression is a preset when its first word begins with `@`, and a row of columns otherwise. The
columns are read from left to right, each adding its items to one selection, so the error that is
reported is the leftmost.
-/

namespace Recurrence.Expression

/-- Adds the item at a position of a column to a selection. -/
def addItem (input : String) (column : Field) (s : Selection) (item : Token × Nat) :
    Except Error Selection :=
  match itemSet column item.1.text with
  | .ok (target, set) => .ok (s.insert target set)
  | .error (field, fault) => .error ⟨.badItem field item.2 fault, item.1.span, input⟩

def addColumn (input : String) (s : Selection) (column : Field × Token) : Except Error Selection :=
  (column.2.items.zipIdx 1).foldlM (addItem input column.1) s

def readColumns (o : Options) (input : String) (columns : List Token) : Except Error Rule :=
  match o.layout? columns.length with
  | none =>
    .error ⟨.columnCount o.fewest o.most columns.length, ⟨0, byteLength input.toList⟩, input⟩
  | some fields =>
    ((fields.zip columns).foldlM (addColumn input) Selection.empty).map Selection.toRule

/-- Reads a preset, given its word and whether it is the only one. -/
def readPreset (o : Options) (input : String) (word : Token) (alone : Bool) : Except Error Rule :=
  if !alone then .error ⟨.presetNotAlone, word.span, input⟩
  else if !o.presets then .error ⟨.presetsDisabled, word.span, input⟩
  else
    match Preset.ofName? word.text with
    | some preset => .ok preset.rule
    | none => .error ⟨.unknownPreset (String.ofList word.text), word.span, input⟩

def read (o : Options) (input : String) : Except Error Rule :=
  let words := words input.toList
  match words.head?.filter fun word => word.text.head? = some '@' with
  | some word => readPreset o input word (words.length = 1)
  | none => readColumns o input words

end Recurrence.Expression
