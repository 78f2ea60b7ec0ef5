import Recurrence.CommandLine.Arguments
import Recurrence.Expression.Reader
import Recurrence.Moment.Text
import Recurrence.Occurrence.Sequence
import Recurrence.Rule.Canonical

/-!
# Answers of the command line

A command line is answered by an exit code, some output and some remarks. Everything that the answer
depends on is an argument of `Response.ofArguments`, the present moment too, which stands in for a
start that is not given.
-/

namespace Recurrence.CommandLine

/-- What a command line is answered with. -/
structure Response where
  /-- The exit code. -/
  code : Nat
  /-- What goes to the standard output. -/
  output : String
  /-- What goes to the standard error. -/
  remarks : String
deriving DecidableEq, Repr

/-- The form of expressions that a command line accepts. -/
def Request.options (r : Request) : Expression.Options :=
  { seconds := r.seconds.getD .optional
    weekdayOptional := r.weekdayOptional
    presets := !r.noPresets }

/-- The largest number of occurrences that are listed. -/
def mostListed : Nat := 1000

/-- How many occurrences a command line asks for: one, or all up to a limit, if it does not say. -/
def Request.wanted (r : Request) : Nat :=
  r.count.getD (if r.limit.isSome then mostListed else 1)

/-- Some text between double quotes; it holds neither quotes nor control characters. -/
def quoted (text : List Char) : List Char :=
  '"' :: text ++ ['"']

def line (text : List Char) : List Char :=
  text ++ ['\n']

/-- A list of moments, as lines or as one array. -/
def listing (json : Bool) (moments : List Moment) : List Char :=
  if json then
    line <| ['['] ++ List.intercalate [','] (moments.map fun m => quoted m.write) ++ [']']
  else (moments.map fun m => line m.write).flatten

/-- The first occurrences of a rule after a moment, up to a limit if there is one. -/
def occurrencesListed (rule : Rule) (start : Moment) (limit : Option Moment) (n : Nat) :
    List Moment :=
  match limit with
  | some limit => ((rule.occurrencesUpTo start limit.instant).take n).1
  | none => rule.nextAfterN start n

namespace Response

/-- The answer to a command line that cannot be read. -/
def misuse (remark : String) : Response :=
  ⟨2, "", s!"error: {remark}\n"⟩

/-- The answer to a moment that cannot be read. -/
def badMoment (name text : String) : Response :=
  ⟨1, "", s!"error: invalid --{name} value \"{text}\": not an instant with an offset and a zone\n"⟩

/-- The answer that says whether a rule is sound. -/
def check (rule : Rule) : Response :=
  ⟨0, if rule.isFeasible then "✓ valid\n" else "✓ valid (never matches)\n", ""⟩

/-- The answer that shows the canonical expression of a rule. -/
def canonical (json : Bool) (rule : Rule) : Response :=
  let text := rule.canonical.toList
  ⟨0, String.ofList (line (if json then quoted text else text)), ""⟩

def list (r : Request) (rule : Rule) (start : Moment) (limit : Option Moment) : Response :=
  let remarks :=
    if mostListed < r.wanted then s!"warning: capped at {mostListed} occurrences\n" else ""
  match occurrencesListed rule start limit (min r.wanted mostListed) with
  | [] => ⟨0, "", remarks ++ "no upcoming occurrences\n"⟩
  | moments => ⟨0, String.ofList (listing r.json moments), remarks⟩

/-- Reads the moment of a setting, if it is given. -/
def readMoment (name : String) : Option String → Except Response (Option Moment)
  | none => .ok none
  | some text =>
    match Moment.read? text.toList with
    | some m => .ok (some m)
    | none => .error (badMoment name text)

/-- The answer that lists the occurrences of a rule between the moments of a request. -/
def listBetween (now : Moment) (r : Request) (rule : Rule) : Response :=
  match readMoment "from" r.start with
  | .error response => response
  | .ok start =>
    match readMoment "to" r.limit with
    | .error response => response
    | .ok limit => list r rule (start.getD now) limit

def ofRequest (now : Moment) (r : Request) : Response :=
  match r.expression with
  | none => misuse "no expression provided"
  | some text =>
    match Expression.read r.options text with
    | .error e => ⟨1, "", e.report ++ "\n"⟩
    | .ok rule =>
      if r.check then check rule
      else if r.normalize then canonical r.json rule
      else listBetween now r rule

def usage : String :=
  "Cron recurrence rules\n\nUsage: cronspec [OPTIONS] [EXPRESSION]\n\n" ++
  "Options:\n" ++
  "  -n, --n <N>              Number of occurrences to show [default: 1, or all up to --to]\n" ++
  "      --from <FROM>        Start instant, exclusive\n" ++
  "      --to <TO>            End instant, inclusive\n" ++
  "      --json               Output as JSON\n" ++
  "      --check              Validate expression without computing\n" ++
  "      --normalize          Print the canonical form of the expression\n" ++
  "      --seconds <SECONDS>  Whether a leading seconds field is accepted\n" ++
  "      --weekday-optional   Accept expressions without the weekday field\n" ++
  "      --no-presets         Reject @daily and friends\n" ++
  "  -v, --verbose...         Log to stderr\n" ++
  "  -h, --help               Print help\n" ++
  "  -V, --version            Print version\n"

/-- The answer to what ended the reading of arguments. -/
def ofInterruption : Interruption → Response
  | .help => ⟨0, usage, ""⟩
  | .version => ⟨0, "cronspec 0.1.0\n", ""⟩
  | .unknownArgument argument => misuse s!"unexpected argument '{argument}' found"
  | .unexpectedValue name => misuse s!"unexpected value for '--{name}' found"
  | .missingValue name => misuse s!"a value is required for '--{name}'"
  | .invalidValue name value => misuse s!"invalid value '{value}' for '--{name}'"
  | .repeated name => misuse s!"'--{name}' cannot be used multiple times"

def ofArguments (now : Moment) (arguments : List String) : Response :=
  match Request.ofArguments arguments with
  | .error interruption => ofInterruption interruption
  | .ok request => ofRequest now request

end Response

end Recurrence.CommandLine
