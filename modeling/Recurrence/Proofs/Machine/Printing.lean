import Recurrence.Proofs.Field
import Recurrence.Proofs.Machine.Iteration

/-!
# Runs in print

The items of a column in the canonical expression are the runs of its values. On a machine they come
from the bits of a word, each standing for the value that lies `Field.least` above it. Days from the
end have their smallest value at the highest bit, so that their word is turned round before. Whatever
the field, no step traps and the runs are those of the values that the column lists
(`drains_nextRun_decode`).
-/

namespace Recurrence.Machine

/-- The set of a field with the bit of the smallest value first. Days from the end fill 31 bits of a
word of 32, and the bit that is left over comes out below them. -/
def lowestFirst (f : Field) (set : BitSet 64) : BitSet 64 :=
  match f with
  | .lastDay => ((set.setWidth 32).reverse >>> 1).setWidth 64
  | _ => set

section

variable {f : Field} {set : BitSet 64} {out : List Run}

theorem getLsbD_lowestFirst_lastDay (i : Nat) :
    (lowestFirst .lastDay set).getLsbD i = true ↔ i ≤ 30 ∧ set.getLsbD (30 - i) = true := by
  simp only [lowestFirst, BitVec.getLsbD_setWidth, BitVec.getLsbD_ushiftRight,
    BitVec.getLsbD_reverse, BitVec.getMsbD_eq_getLsbD, Bool.and_eq_true, decide_eq_true_eq]
  have place : 32 - 1 - (1 + i) = 30 - i := by omega
  rw [place]
  constructor
  · rintro ⟨_, inside, _, member⟩
    exact ⟨by omega, member⟩
  · rintro ⟨inside, member⟩
    exact ⟨by omega, by omega, by omega, member⟩

/-- Read from the lowest bit on, the set of a field lists the field's values. -/
theorem members_lowestFirst (bounded : ∀ i, set.getLsbD i = true → i < f.places) :
    (lowestFirst f set).members.map (· + f.least) = f.decode set := by
  cases f
  case day | month => rfl
  case lastDay =>
    have ascending := BitSet.pairwise_members (lowestFirst .lastDay set)
    refine List.Pairwise.eq_of_mem_iff (r := (· < ·))
      (List.pairwise_map.2 (ascending.imp fun before => Nat.add_lt_add_right before _))
      (Field.pairwise_decode bounded) fun v => ?_
    rw [Field.mem_decode bounded]
    simp only [List.mem_map, BitSet.mem_members, getLsbD_lowestFirst_lastDay, Field.least,
      Field.greatest, Field.slot]
    constructor
    · rintro ⟨i, ⟨inside, member⟩, rfl⟩
      have place : 31 - (i + 1) = 30 - i := by omega
      exact ⟨by omega, by omega, place ▸ member⟩
    · rintro ⟨_, _, member⟩
      have place : 30 - (v - 1) = 31 - v := by omega
      exact ⟨v - 1, ⟨by omega, place ▸ member⟩, by omega⟩
  all_goals exact List.map_id' _

/-- **The runs in print are those of the values.** No value of a field lies more than one above its
bit, so that the runs of a set within a field can always be given, and they are what the field's
column lists. -/
theorem drains_nextRun_decode (bounded : ∀ i, set.getLsbD i = true → i < f.places) :
    Drains (Peekable.nextRun f.least) ⟨none, lowestFirst f set⟩ out ↔
      out = Run.group (f.decode set) := by
  have near : f.least ≤ 1 := by cases f <;> decide
  rw [Peekable.drains_nextRun_iff_of_le_one near, members_lowestFirst bounded]

end

/-- The last day of a month, and the first three of a long one, counted from the end. -/
example : Run.group ((lowestFirst .lastDay 0x40000007).members.map (· + 1)) =
    [⟨1, 1⟩, ⟨29, 31⟩] := by decide +kernel

end Recurrence.Machine
