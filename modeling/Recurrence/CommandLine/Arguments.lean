import Recurrence.Expression.Options
import Recurrence.Expression.Token
import Recurrence.Text.Decimal

/-!
# Arguments of the command line

Arguments are read from left to right. Switches stand alone, settings take a value, and the one
argument that is neither is the expression. A short name can be followed at once by further short
names or by the setting's value, a long one by `=` and the value; the value of a setting can also be
the next argument, unless that looks like a name. After `--` every argument is taken as it is.

The first argument that is wrong ends the reading, and so does a switch that asks for help or for
the version. Only the switch for verbosity may be repeated.
-/

namespace Recurrence.CommandLine

open Expression (SecondsColumn cutAt?)

/-- What a command line asks for. -/
structure Request where
  expression : Option String := none
  /-- How many occurrences to list. -/
  count : Option Nat := none
  /-- The text of the moment after which to list. -/
  start : Option String := none
  /-- The text of the moment up to which to list. -/
  limit : Option String := none
  seconds : Option SecondsColumn := none
  json : Bool := false
  check : Bool := false
  normalize : Bool := false
  weekdayOptional : Bool := false
  noPresets : Bool := false
  verbosity : Nat := 0
deriving DecidableEq, Repr

/-- What ends the reading of arguments early. -/
inductive Interruption
  | help
  | version
  | unknownArgument (argument : String)
  | unexpectedValue (name : String)
  | missingValue (name : String)
  | invalidValue (name value : String)
  | repeated (name : String)
deriving DecidableEq, Repr

/-! ## Switches -/

/-- A name that stands alone. -/
inductive Switch
  | json
  | check
  | normalize
  | weekdayOptional
  | noPresets
  | verbose
  | version
  | help
deriving DecidableEq, Repr

namespace Switch

def all : List Switch :=
  [json, check, normalize, weekdayOptional, noPresets, verbose, version, help]

def longName : Switch → String
  | json => "json"
  | check => "check"
  | normalize => "normalize"
  | weekdayOptional => "weekday-optional"
  | noPresets => "no-presets"
  | verbose => "verbose"
  | version => "version"
  | help => "help"

def shortName? : Switch → Option Char
  | verbose => some 'v'
  | version => some 'V'
  | help => some 'h'
  | _ => none

def ofLongName? (name : List Char) : Option Switch :=
  all.find? (·.longName.toList = name)

def ofShortName? (c : Char) : Option Switch :=
  all.find? (·.shortName? = some c)

/-- Turns on what can be turned on once. -/
def once (s : Switch) (isOn : Bool) (on : Request) : Except Interruption Request :=
  if isOn then .error (.repeated s.longName) else .ok on

def turnOn (s : Switch) (r : Request) : Except Interruption Request :=
  match s with
  | json => s.once r.json { r with json := true }
  | check => s.once r.check { r with check := true }
  | normalize => s.once r.normalize { r with normalize := true }
  | weekdayOptional => s.once r.weekdayOptional { r with weekdayOptional := true }
  | noPresets => s.once r.noPresets { r with noPresets := true }
  | verbose => .ok { r with verbosity := r.verbosity + 1 }
  | version => .error .version
  | help => .error .help

end Switch

/-! ## Settings -/

/-- A name that takes a value. -/
inductive Setting
  | count
  | start
  | limit
  | seconds
deriving DecidableEq, Repr

namespace Setting

def all : List Setting := [count, start, limit, seconds]

def longName : Setting → String
  | count => "n"
  | start => "from"
  | limit => "to"
  | seconds => "seconds"

def shortName? : Setting → Option Char
  | count => some 'n'
  | _ => none

def ofLongName? (name : List Char) : Option Setting :=
  all.find? (·.longName.toList = name)

def ofShortName? (c : Char) : Option Setting :=
  all.find? (·.shortName? = some c)

/-- The largest count that can be asked for. -/
def largestCount : Nat := 4294967295

/-- Reads a count: digits, with a sign before them if need be. -/
def readCount? (text : List Char) : Option Nat :=
  match text with
  | '+' :: digits => Decimal.readUpTo? largestCount digits
  | '-' :: digits => Decimal.readUpTo? 0 digits
  | digits => Decimal.readUpTo? largestCount digits

/-- Sets what can be set once. -/
def once {α : Type} (s : Setting) (old : Option α) (value : String) (new : Option α)
    (set : α → Request) : Except Interruption Request :=
  match old, new with
  | some _, _ => .error (.repeated s.longName)
  | none, none => .error (.invalidValue s.longName value)
  | none, some x => .ok (set x)

def assign (s : Setting) (value : String) (r : Request) : Except Interruption Request :=
  match s with
  | count => s.once r.count value (readCount? value.toList) fun n => { r with count := some n }
  | start => s.once r.start value (some value) fun text => { r with start := some text }
  | limit => s.once r.limit value (some value) fun text => { r with limit := some text }
  | seconds =>
    s.once r.seconds value (SecondsColumn.ofName? value) fun way => { r with seconds := some way }

end Setting

/-! ## Reading -/

/-- Takes an argument as the expression. -/
def Request.takeExpression (r : Request) (argument : String) : Except Interruption Request :=
  match r.expression with
  | some _ => .error (.unknownArgument argument)
  | none => .ok { r with expression := some argument }

/-- Reads short names that follow one hyphen, and gives the setting that still waits for its
value. -/
def readShort : List Char → Request → Except Interruption (Option Setting × Request)
  | [], r => .ok (none, r)
  | c :: rest, r =>
    match Switch.ofShortName? c, Setting.ofShortName? c with
    | some switch, _ => do
      let r ← switch.turnOn r
      readShort rest r
    | none, some setting =>
      match rest with
      | [] => .ok (some setting, r)
      | '=' :: value => (setting.assign (String.ofList value) r).map (none, ·)
      | value => (setting.assign (String.ofList value) r).map (none, ·)
    | none, none => .error (.unknownArgument (String.ofList ['-', c]))

/-- Reads a long name, with a value or without, and gives the setting that still waits for its
value. -/
def readLong (name : List Char) (value : Option String) (r : Request) :
    Except Interruption (Option Setting × Request) :=
  match Switch.ofLongName? name, Setting.ofLongName? name with
  | some switch, _ =>
    match value with
    | none => (switch.turnOn r).map (none, ·)
    | some _ => .error (.unexpectedValue switch.longName)
  | none, some setting =>
    match value with
    | none => .ok (some setting, r)
    | some value => (setting.assign value r).map (none, ·)
  | none, none => .error (.unknownArgument (String.ofList ('-' :: '-' :: name)))

/-- Whether an argument looks like a name; a lone hyphen does not. -/
def looksLikeName (argument : String) : Bool :=
  argument.toList.head? = some '-' && argument ≠ "-"

/-- Reads one argument, and gives the setting that still waits for its value. -/
def readArgument (argument : String) (r : Request) :
    Except Interruption (Option Setting × Request) :=
  match argument.toList with
  | '-' :: '-' :: text =>
    match cutAt? '=' text with
    | some (name, value) => readLong name (some (String.ofList value)) r
    | none => readLong text none r
  | '-' :: c :: rest => readShort (c :: rest) r
  | _ => (r.takeExpression argument).map (none, ·)

/-- Reads arguments, the first of which may be the value that a setting waits for. -/
def readArguments : Option Setting → List String → Request → Except Interruption Request
  | none, [], r => .ok r
  | some setting, [], _ => .error (.missingValue setting.longName)
  | some setting, value :: rest, r =>
    if looksLikeName value then .error (.missingValue setting.longName)
    else do
      let r ← setting.assign value r
      readArguments none rest r
  | none, argument :: rest, r =>
    if argument = "--" then rest.foldlM Request.takeExpression r
    else do
      let (waiting, r) ← readArgument argument r
      readArguments waiting rest r

def Request.ofArguments (arguments : List String) : Except Interruption Request :=
  readArguments none arguments {}

end Recurrence.CommandLine
