import Recurrence.Field.Fault
import Recurrence.Expression.Token
import Recurrence.Text.Ordinal

/-!
# Errors in an expression

An error has a cause and a place. `Error.message` words the cause; `Error.report` shows the input as
well, with the place underlined. Both count bytes, so the line under an input with longer characters
runs ahead of it.
-/

namespace Recurrence.Expression

inductive Cause
  | columnCount (fewest most found : Nat)
  | presetNotAlone
  | presetsDisabled
  | unknownPreset (name : String)
  /-- The item at a position of a column, counted from one, is bad. -/
  | badItem (field : Field) (position : Nat) (fault : Fault)
deriving DecidableEq, Repr

/-- Two bounds as text, one number when they agree. -/
def boundsText (fewest most : Nat) : String :=
  if fewest = most then toString fewest else s!"{fewest} to {most}"

def Cause.message : Cause → String
  | columnCount fewest most found => s!"expected {boundsText fewest most} fields, got {found}"
  | presetNotAlone => "a preset must be the only token"
  | presetsDisabled => "presets are disabled"
  | unknownPreset name => s!"unknown preset '{name}'"
  | badItem field position fault =>
    s!"invalid {field.label} field ({ordinal position} value in list): {fault.message}"

/-- A cause, the place it was found at, and the input. -/
structure Error where
  cause : Cause
  span : Span
  input : String
deriving DecidableEq, Repr

def Error.message (e : Error) : String := e.cause.message

/-- The width of the line under a place; an empty place is still marked. -/
def Span.width (s : Span) : Nat := max (s.stop - s.start) 1

/-- The wording of an error, the input, and a line under the place. -/
def Error.report (e : Error) : String :=
  let underline := List.replicate (e.span.start + 2) ' ' ++ List.replicate e.span.width '^'
  s!"error: {e.message}\n  {e.input}\n" ++ String.ofList underline

end Recurrence.Expression
