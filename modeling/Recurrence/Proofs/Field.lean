import Recurrence.Field.Value
import Recurrence.Proofs.BitSet

/-!
# Values and places of a field

Each value of a field has its place in the field's bit set, `Field.slot`. A tested range gives the
set of its values' places (`Field.getLsbD_encode`), and a set is listed as the values of its places
(`Field.mem_decode`).
-/

namespace Recurrence

namespace Field

/-- The place of a value in the bit set of a field. -/
def slot (f : Field) (v : Nat) : Nat :=
  match f with
  | day | month => v - 1
  | lastDay => 31 - v
  | _ => v

/-- The number of places in the bit set of a field. -/
def places : Field → Nat
  | second | minute => 60
  | hour => 24
  | day | lastDay => 31
  | month => 12
  | weekday | strictWeekday => 8

theorem greatest_lt (f : Field) : f.greatest < 64 := by
  cases f <;> decide

theorem least_le_greatest (f : Field) : f.least ≤ f.greatest := by
  cases f <;> decide

/-! ## Sets of ranges -/

variable {f : Field} {low high step i v : Nat}

/-- The set of a range holds the places of its values, from either end of the month. -/
theorem getLsbD_encode (hlow : f.least ≤ low) (hle : low ≤ high) (hhigh : high ≤ f.greatest) :
    (f.encode low high step).getLsbD i = true ↔
      ∃ v, low ≤ v ∧ v ≤ high ∧ step ∣ v - low ∧ f.slot v = i := by
  have bound := f.greatest_lt
  cases f
  case day | month =>
    have hlow : 1 ≤ low := hlow
    rw [encode, BitSet.getLsbD_progression (by omega) (by omega)]
    simp only [slot]
    constructor
    · rintro ⟨hi, hi', hdvd⟩
      have place : i + 1 - low = i - (low - 1) := by omega
      exact ⟨i + 1, by omega, by omega, place ▸ hdvd, rfl⟩
    · rintro ⟨v, hv, hv', hdvd, rfl⟩
      have place : v - 1 - (low - 1) = v - low := by omega
      exact ⟨by omega, by omega, place ▸ hdvd⟩
  case lastDay =>
    have hhigh : high ≤ 31 := hhigh
    rw [encode, BitSet.getLsbD_progressionFromEnd hle hhigh (by decide)]
    simp only [slot]
    constructor
    · rintro ⟨hi, hv, hv', hdvd⟩
      exact ⟨31 - i, hv, hv', hdvd, by omega⟩
    · rintro ⟨v, hv, hv', hdvd, rfl⟩
      rw [Nat.sub_sub_self (Nat.le_trans hv' hhigh)]
      exact ⟨by omega, hv, hv', hdvd⟩
  all_goals
    rw [encode, BitSet.getLsbD_progression hle (by omega)]
    · simp only [slot]
      constructor
      · rintro ⟨hi, hi', hdvd⟩
        exact ⟨i, hi, hi', hdvd, rfl⟩
      · rintro ⟨v, hv, hv', hdvd, rfl⟩
        exact ⟨hv, hv', hdvd⟩
    all_goals
      intro h
      cases h

theorem slot_lt (hlow : f.least ≤ v) (hhigh : v ≤ f.greatest) : f.slot v < f.places := by
  cases f <;> simp only [slot, places, least, greatest] at * <;> omega

theorem exists_slot (h : i < f.places) : ∃ v, f.least ≤ v ∧ v ≤ f.greatest ∧ f.slot v = i := by
  cases f <;> simp only [slot, places, least, greatest] at *
  case day | month => exact ⟨i + 1, by omega, by omega, by omega⟩
  case lastDay => exact ⟨31 - i, by omega, by omega, by omega⟩
  all_goals exact ⟨i, by omega, by omega, rfl⟩

theorem getLsbD_allValues : f.allValues.getLsbD i = true ↔ i < f.places := by
  rw [allValues, getLsbD_encode (Nat.le_refl _) f.least_le_greatest (Nat.le_refl _)]
  constructor
  · rintro ⟨v, hlow, hhigh, _, rfl⟩
    exact slot_lt hlow hhigh
  · intro h
    obtain ⟨v, hlow, hhigh, same⟩ := exists_slot h
    exact ⟨v, hlow, hhigh, Nat.one_dvd _, same⟩

/-! ## Values of sets -/

/-- A set within the places of a field lists the values of its places. -/
theorem mem_decode {w : Nat} {set : BitSet w} (h : ∀ i, set.getLsbD i = true → i < f.places) :
    v ∈ f.decode set ↔ f.least ≤ v ∧ v ≤ f.greatest ∧ set.getLsbD (f.slot v) = true := by
  cases f
  case day | month =>
    simp only [decode, List.mem_map, BitSet.mem_members, least, greatest, slot, places] at *
    constructor
    · rintro ⟨i, member, rfl⟩
      have := h i member
      exact ⟨by omega, by omega, member⟩
    · rintro ⟨hlow, _, member⟩
      exact ⟨v - 1, member, by omega⟩
  case lastDay =>
    simp only [decode, List.mem_reverse, List.mem_map, BitSet.mem_members, least, greatest, slot,
      places] at *
    constructor
    · rintro ⟨i, member, rfl⟩
      have := h i member
      refine ⟨by omega, by omega, ?_⟩
      rwa [Nat.sub_sub_self (by omega)]
    · rintro ⟨_, hhigh, member⟩
      exact ⟨31 - v, member, by omega⟩
  all_goals
    simp only [decode, BitSet.mem_members, least, greatest, slot, places] at *
    constructor
    · intro member
      have := h v member
      exact ⟨by omega, by omega, member⟩
    · exact fun h => h.2.2

/-- The values are listed in ascending order, from either end of the month. -/
theorem pairwise_decode {w : Nat} {set : BitSet w}
    (h : ∀ i, set.getLsbD i = true → i < f.places) : (f.decode set).Pairwise (· < ·) := by
  have ascending := BitSet.pairwise_members set
  cases f
  case day | month => exact List.pairwise_map.2 (ascending.imp fun before => by omega)
  case lastDay =>
    refine List.pairwise_reverse.2 (List.pairwise_map.2 (ascending.imp_of_mem ?_))
    intro i j _ hj before
    have : j < 31 := h j (BitSet.mem_members.1 hj)
    omega
  all_goals exact ascending

end Field

end Recurrence
