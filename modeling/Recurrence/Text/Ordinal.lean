/-!
# Ordinal numbers
-/

namespace Recurrence

/-- The ending of an ordinal number: the last digit decides, save that eleven to thirteen take
`th`. -/
def ordinalEnding (n : Nat) : String :=
  if 11 ≤ n % 100 ∧ n % 100 ≤ 13 then "th"
  else match n % 10 with
    | 1 => "st"
    | 2 => "nd"
    | 3 => "rd"
    | _ => "th"

/-- A number as an ordinal, such as `1st`. -/
def ordinal (n : Nat) : String :=
  toString n ++ ordinalEnding n

end Recurrence
