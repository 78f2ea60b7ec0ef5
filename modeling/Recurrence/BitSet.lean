/-!
# Sets of small numbers as bit vectors

A field of a recurrence rule admits a set of small numbers. The set is kept as a bit vector, bit `i`
standing for the number `i`, so that union, intersection and the filters of a month are single word
operations. Membership is `BitVec.getLsbD`: each operation here is told by what it does to it.

Arithmetic progressions are built in three ways: one bit, a mask for consecutive numbers, and a walk
for the other steps. The walk is a fold over `List.range'`, so it ends by construction.
-/

namespace Recurrence

/-- A set of numbers below `w`: the number `i` is in the set when bit `i` is set. -/
abbrev BitSet (w : Nat) := BitVec w

namespace BitSet

variable {w : Nat}

/-- The set that holds `i` alone, empty when `i` does not fit. -/
def singleton (i : Nat) : BitSet w :=
  BitVec.twoPow w i

/-- The numbers from `low` to `high`, both included. -/
def interval (low high : Nat) : BitSet w :=
  (BitVec.allOnes w >>> (w - 1 - high)) &&& (BitVec.allOnes w <<< low)

/-- The numbers `low`, `low + step`, … up to `high`, in ascending order; `step` is positive. The
counter that goes through them is a number without bounds. One in a word of 32 bits has to pass
`high` within the word, for which the step must leave room (`Machine.largestStride`,
`Machine.StepsLeaveRoom`); it then goes through the same numbers (`Machine.walk_eq`). -/
def ticks (low high step : Nat) : List Nat :=
  List.range' low ((high + step - low) / step) step

/-- The set of the positions that `slot` gives to the members of a list. -/
def ofList (slot : Nat → Nat) (values : List Nat) : BitSet w :=
  values.foldl (fun set v => set ||| singleton (slot v)) 0

/-- The numbers `low`, `low + step`, … up to `high`. A step of zero selects `low` alone. -/
def progression (low high step : Nat) : BitSet w :=
  match step with
  | 0 => singleton low
  | 1 => interval low high
  | _ => ofList id (ticks low high step)

/-- The numbers of `progression low high step`, each `i` stored at position `top - i`: the set is
read from its end. -/
def progressionFromEnd (low high step top : Nat) : BitSet w :=
  match step with
  | 0 => singleton (top - low)
  | 1 => interval (top - high) (top - low)
  | _ => ofList (top - ·) (ticks low high step)

/-- The members in ascending order. -/
def members (set : BitSet w) : List Nat :=
  (List.range w).filter set.getLsbD

/-- The least member that is at least `start`. -/
def next? (set : BitSet w) (start : Nat) : Option Nat :=
  (List.range' start (w - start)).find? set.getLsbD

end BitSet

/-! ## Runs of consecutive numbers -/

/-- The numbers from `first` to `last`, both included. -/
structure Run where
  first : Nat
  last : Nat
deriving DecidableEq, Repr

namespace Run

/-- Puts a number before a list of runs: it joins the first run when it is that run's
predecessor. -/
def cons (v : Nat) : List Run → List Run
  | [] => [⟨v, v⟩]
  | r :: rs => if r.first = v + 1 then ⟨v, r.last⟩ :: rs else ⟨v, v⟩ :: r :: rs

/-- Groups ascending numbers into the longest runs of consecutive ones. -/
def group (values : List Nat) : List Run :=
  values.foldr cons []

/-- The numbers of a run, in ascending order. -/
def toList (r : Run) : List Nat :=
  List.range' r.first (r.last + 1 - r.first)

end Run

end Recurrence
