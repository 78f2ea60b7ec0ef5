import Recurrence.CommandLine.Response
import Std.Time.DateTime.Timestamp

/-!
# The program

Reads the clock, answers the command line and prints the answer.
-/

open Recurrence

/-- The present moment in universal time. -/
def presentMoment : IO Moment := do
  let now ← Std.Time.Timestamp.now
  return ⟨⟨now.toNanosecondsSinceUnixEpoch.val⟩, .utc⟩

def main (arguments : List String) : IO UInt32 := do
  let response := CommandLine.Response.ofArguments (← presentMoment) arguments
  IO.print response.output
  IO.eprint response.remarks
  return response.code.toUInt32
