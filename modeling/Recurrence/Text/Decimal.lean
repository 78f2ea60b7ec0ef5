/-!
# Decimal numbers

Reading and writing numbers in the ten ASCII digits, over lists of characters. Leading zeros are
allowed when reading and a sign is not.
-/

namespace Recurrence.Decimal

/-- The number that a list of ASCII digits denotes. -/
def value (digits : List Char) : Nat :=
  digits.foldl (fun n c => 10 * n + (c.toNat - '0'.toNat)) 0

/-- Reads a number that is written with one digit or more and nothing else. -/
def read? (text : List Char) : Option Nat :=
  if text ≠ [] ∧ text.all Char.isDigit then some (value text) else none

def readUpTo? (bound : Nat) (text : List Char) : Option Nat :=
  (read? text).filter (· ≤ bound)

/-- Writes a number with no leading zeros. -/
def write (n : Nat) : List Char :=
  Nat.toDigits 10 n

/-- Writes a number with at least `width` digits, filled with zeros on the left. -/
def writePadded (width n : Nat) : List Char :=
  List.replicate (width - (write n).length) '0' ++ write n

end Recurrence.Decimal
