import Recurrence.Rule.Selection

/-!
# Presets

A preset is a rule with a name. Names are read in any mix of ASCII cases, and some presets have
several, a common misspelling among them.
-/

namespace Recurrence.Expression

/-- A rule with a name. -/
inductive Preset
  | hourly
  | daily
  | weekly
  | monthly
  | yearly
deriving DecidableEq, Repr

namespace Preset

def all : List Preset := [hourly, daily, weekly, monthly, yearly]

def names : Preset → List String
  | hourly => ["@hourly"]
  | daily => ["@daily", "@midnight", "@midnigth"]
  | weekly => ["@weekly"]
  | monthly => ["@monthly"]
  | yearly => ["@yearly", "@annually"]

def ofName? (text : List Char) : Option Preset :=
  all.find? fun preset => preset.names.any fun name => name.toList == text.map Char.toLower

/-- The single values that a preset chooses. -/
def choices : Preset → List (Field × Nat)
  | hourly => [(.minute, 0)]
  | daily => [(.minute, 0), (.hour, 0)]
  | weekly => [(.minute, 0), (.hour, 0), (.weekday, 0)]
  | monthly => [(.minute, 0), (.hour, 0), (.day, 1)]
  | yearly => [(.minute, 0), (.hour, 0), (.day, 1), (.month, 1)]

def rule (preset : Preset) : Rule :=
  let selection : Selection :=
    preset.choices.foldl (fun s (f, v) => s.insert f (f.encode v v 0)) .empty
  selection.toRule

end Preset

end Recurrence.Expression
