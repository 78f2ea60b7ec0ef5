import Mathlib.Data.Nat.Digits.Defs
import Recurrence.Text.Decimal

/-!
# Numerals

A numeral is read as the number it stands for, leading zeros included
(`Decimal.read?_eq_some_iff`). Each number has a numeral without such zeros
(`Decimal.isNumeral_write`) and, if it is small enough, one of a given width
(`Decimal.isNumeral_writePadded`, `Decimal.length_writePadded`).
-/

namespace Recurrence.Decimal

/-- A run of digits is the numeral of a number. -/
structure IsNumeral (text : List Char) (n : Nat) : Prop where
  ne_nil : text ≠ []
  digits : text.all Char.isDigit = true
  value : value text = n

variable {bound width n : Nat} {text : List Char} {c : Char}

/-! ## Reading -/

theorem read?_eq_some_iff : read? text = some n ↔ IsNumeral text n := by
  rw [read?]
  constructor
  · intro h
    split at h
    · rename_i numeral
      exact ⟨numeral.1, numeral.2, Option.some.inj h⟩
    · cases h
  · intro h
    rw [if_pos ⟨h.ne_nil, h.digits⟩, h.value]

theorem readUpTo?_eq_some_iff :
    readUpTo? bound text = some n ↔ IsNumeral text n ∧ n ≤ bound := by
  rw [readUpTo?, Option.filter_eq_some_iff, decide_eq_true_eq, read?_eq_some_iff]

/-! ## Writing -/

theorem write_ne_nil (n : Nat) : write n ≠ [] :=
  Nat.toDigits_ne_nil

theorem isDigit_of_mem_write (h : c ∈ write n) : c.isDigit = true :=
  Nat.isDigit_of_mem_toDigits (by decide) (by decide) h

theorem isDigit_of_head?_write (h : (write n).head? = some c) : c.isDigit = true :=
  isDigit_of_mem_write (List.mem_of_head? h)

theorem isNumeral_write (n : Nat) : IsNumeral (write n) n where
  ne_nil := write_ne_nil n
  digits := List.all_eq_true.2 fun _ => isDigit_of_mem_write
  value := Nat.ofDigitChars_ten_toDigits

theorem value_replicate_append (k : Nat) (text : List Char) :
    value (List.replicate k '0' ++ text) = value text := by
  induction k with
  | zero => rfl
  | succ k ih =>
    rw [List.replicate_succ, List.cons_append]
    exact ih

theorem isDigit_of_mem_writePadded (h : c ∈ writePadded width n) : c.isDigit = true := by
  rcases List.mem_append.1 h with h | h
  · rw [List.eq_of_mem_replicate h]
    rfl
  · exact isDigit_of_mem_write h

theorem isNumeral_writePadded (width n : Nat) : IsNumeral (writePadded width n) n where
  ne_nil := List.append_ne_nil_of_right_ne_nil _ (write_ne_nil n)
  digits := List.all_eq_true.2 fun _ => isDigit_of_mem_writePadded
  value := (value_replicate_append _ _).trans (isNumeral_write n).value

theorem length_writePadded (hw : 0 < width) (h : n < 10 ^ width) :
    (writePadded width n).length = width := by
  have short : (write n).length ≤ width := Nat.toDigits_length _ _ _ hw h
  rw [writePadded, List.length_append, List.length_replicate]
  omega

end Recurrence.Decimal
