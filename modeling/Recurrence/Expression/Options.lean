import Recurrence.Field.Basic

/-!
# Layouts of an expression

An expression has a column for minutes, hours, days and months, in this order. Options say whether a
column for seconds may or must come first and whether the one for weekdays may be left out at the
end. The number of columns then tells which are there.
-/

namespace Recurrence.Expression

/-- Whether an expression begins with a column for seconds. -/
inductive SecondsColumn
  | never
  | optional
  | required
deriving DecidableEq, Repr

namespace SecondsColumn

def all : List SecondsColumn := [never, optional, required]

def name : SecondsColumn → String
  | never => "never"
  | optional => "optional"
  | required => "required"

def ofName? (text : String) : Option SecondsColumn :=
  all.find? (·.name = text)

end SecondsColumn

/-- The forms of expression that are accepted. -/
structure Options where
  seconds : SecondsColumn := .optional
  /-- The column for weekdays may be left out. -/
  weekdayOptional : Bool := false
  /-- An expression may be one of the named presets. -/
  presets : Bool := true
deriving DecidableEq, Repr

namespace Options

/-- Five columns, from minutes to weekdays. -/
def standard : Options := { seconds := .never }

/-- Six columns, from seconds to weekdays. -/
def withSeconds : Options := { seconds := .required }

def fewest (o : Options) : Nat :=
  4 + (if o.seconds = .required then 1 else 0) + (if o.weekdayOptional then 0 else 1)

def most (o : Options) : Nat :=
  5 + (if o.seconds = .never then 0 else 1)

/-- Whether a row of `count` columns begins with seconds. -/
def showsSeconds (o : Options) (count : Nat) : Bool :=
  match o.seconds with
  | .never => false
  | .optional => o.most ≤ count
  | .required => true

/-- Whether a row of `count` columns ends with weekdays. Of two columns that may be left out, the
seconds are the first to be. -/
def showsWeekday (o : Options) (count : Nat) : Bool :=
  !o.weekdayOptional || o.most ≤ count + (if o.seconds = .optional then 1 else 0)

/-- The fields of a row of `count` columns, if there may be that many. -/
def layout? (o : Options) (count : Nat) : Option (List Field) :=
  if o.fewest ≤ count ∧ count ≤ o.most then
    some <|
      (if o.showsSeconds count then [.second] else []) ++ [.minute, .hour, .day, .month] ++
        (if o.showsWeekday count then [.weekday] else [])
  else none

end Options

end Recurrence.Expression
