import Recurrence.Rule.Selection
import Recurrence.Field.Value

/-!
# Rules from clauses

A clause adds values to one field of a rule, listed one by one or as a range with a step. A list of
clauses either gives a rule, or is refused with the fault of its first bad value; later clauses
cannot mend it.
-/

namespace Recurrence

/-- An addition of values to one field. -/
inductive Clause
  | values (field : Field) (values : List Nat)
  /-- The values `low`, `low + step`, … up to `high`. A negative `high` is the largest value of the
  field, and a `step` below one selects `low` alone. -/
  | range (field : Field) (low high step : Int)
deriving DecidableEq, Repr

/-- A fault in a clause, and the clause's field. -/
structure ClauseError where
  field : Field
  fault : Fault
deriving DecidableEq, Repr

def ClauseError.message (e : ClauseError) : String :=
  s!"invalid {e.field.label} value: {e.fault.message}"

namespace Clause

def field : Clause → Field
  | values f _ => f
  | range f _ _ _ => f

/-- The upper bound and the step that a range is read with. -/
def bounds (f : Field) (low high step : Int) : Int × Nat :=
  if step ≤ 0 then (low, 0)
  else if high < 0 then (f.greatest, step.toNat)
  else (high, step.toNat)

/-- The values that a clause adds, or the first fault among them. -/
def set : Clause → Except Fault (BitSet 64)
  | values f vs =>
    vs.foldlM (fun (set : BitSet 64) (v : Nat) => (f.rangeSet v v 0).map (set ||| ·)) 0
  | range f low high step =>
    let (high, step) := bounds f low high step
    f.rangeSet low high step

end Clause

/-- Adds the values of a clause to a selection. -/
def Selection.add (s : Selection) (c : Clause) : Except ClauseError Selection :=
  match c.set with
  | .ok set => .ok (s.insert c.field set)
  | .error fault => .error ⟨c.field, fault⟩

/-- The rule that a list of clauses describes. -/
def Rule.ofClauses (clauses : List Clause) : Except ClauseError Rule :=
  (clauses.foldlM Selection.add Selection.empty).map Selection.toRule

end Recurrence
