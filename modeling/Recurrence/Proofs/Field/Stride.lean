import Recurrence.Proofs.Field

/-!
# Strides

A range with a step asks a field for a stride: the values `low`, `low + step`, … up to `high`. A
field takes the strides that lie within it (`Stride.IsWithin`) and tells of any other what is wrong
with it (`Stride.HasFault`); the test of a range decides between the two
(`Field.check_eq_ok_iff`, `Field.check_eq_error_iff`). The set that is made of a stride holds the
places of its values (`Field.getLsbD_rangeSet`).
-/

namespace Recurrence

theorem Except.bind_eq_ok_iff {ε α β : Type} {x : Except ε α} {f : α → Except ε β} {b : β} :
    x >>= f = .ok b ↔ ∃ a, x = .ok a ∧ f a = .ok b := by
  cases x with
  | error e => exact ⟨nofun, nofun⟩
  | ok a => exact ⟨fun h => ⟨a, rfl, h⟩, fun ⟨_, rfl, h⟩ => h⟩

theorem Except.map_eq_ok_iff {ε α β : Type} {x : Except ε α} {f : α → β} {b : β} :
    x.map f = .ok b ↔ ∃ a, x = .ok a ∧ f a = b := by
  cases x with
  | error e => exact ⟨nofun, nofun⟩
  | ok a => exact ⟨fun h => ⟨a, rfl, Except.ok.inj h⟩, fun ⟨_, rfl, h⟩ => congrArg Except.ok h⟩

theorem Except.bind_eq_error_iff {ε α β : Type} {x : Except ε α} {f : α → Except ε β} {e : ε} :
    x >>= f = .error e ↔ x = .error e ∨ ∃ a, x = .ok a ∧ f a = .error e := by
  cases x with
  | error e' =>
    constructor
    · rintro ⟨⟩
      exact .inl rfl
    · rintro (⟨⟨⟩⟩ | ⟨_, ⟨⟩, _⟩)
      rfl
  | ok a =>
    constructor
    · exact fun h => .inr ⟨a, rfl, h⟩
    · rintro (⟨⟨⟩⟩ | ⟨_, ⟨⟩, h⟩)
      exact h

theorem Except.map_eq_error_iff {ε α β : Type} {x : Except ε α} {f : α → β} {e : ε} :
    x.map f = .error e ↔ x = .error e := by
  cases x with
  | error e' => simp only [Except.map, Except.error.injEq]
  | ok a => exact ⟨nofun, nofun⟩

theorem Except.mapError_eq_error_iff {ε ε' α : Type} {x : Except ε α} {f : ε → ε'} {e : ε'} :
    x.mapError f = .error e ↔ ∃ e', x = .error e' ∧ f e' = e := by
  cases x with
  | error e' =>
    constructor
    · intro h
      exact ⟨e', rfl, Except.error.inj h⟩
    · intro h
      obtain ⟨_, same, rfl⟩ := h
      cases same
      rfl
  | ok a =>
    constructor
    · intro h
      cases h
    · intro h
      obtain ⟨_, same, _⟩ := h
      cases same

/-- The values `low`, `low + step`, … up to `high`, as they are asked for. A step of zero asks for
`low` alone. -/
structure Stride where
  low : Int
  high : Int
  step : Nat
deriving DecidableEq, Repr

namespace Stride

/-- Whether a value belongs to a stride. -/
def Holds (s : Stride) (v : Nat) : Prop :=
  s.low ≤ v ∧ v ≤ s.high ∧ (s.step : Int) ∣ v - s.low

/-- A stride that a field takes: it runs upward within the field's bounds, and its step does not
leave it, unless it is a single value. -/
def IsWithin (s : Stride) (f : Field) : Prop :=
  f.least ≤ s.low ∧ s.low ≤ s.high ∧ s.high ≤ f.greatest ∧
    (s.step ≤ s.high - s.low ∨ s.high = s.low)

instance (s : Stride) (f : Field) : Decidable (s.IsWithin f) :=
  inferInstanceAs (Decidable (_ ∧ _))

/-- What is wrong with a stride in a field. The bounds are judged first, the lower one before the
upper one, then their order, and the step last. -/
inductive HasFault (s : Stride) (f : Field) : Fault → Prop
  | lowBelow (h : s.low < f.least) : HasFault s f (.belowMinimum s.low f.least)
  | lowAbove (h : f.greatest < s.low) : HasFault s f (.aboveMaximum s.low f.greatest)
  | highBelow (low : f.least ≤ s.low ∧ s.low ≤ f.greatest) (h : s.high < f.least) :
      HasFault s f (.belowMinimum s.high f.least)
  | highAbove (low : f.least ≤ s.low ∧ s.low ≤ f.greatest) (h : f.greatest < s.high) :
      HasFault s f (.aboveMaximum s.high f.greatest)
  | inverted (low : s.low ≤ f.greatest) (high : f.least ≤ s.high) (h : s.high < s.low) :
      HasFault s f (.invertedRange s.low.toNat s.high.toNat)
  | leaves (low : f.least ≤ s.low) (high : s.high ≤ f.greatest) (order : s.low < s.high)
      (h : s.high - s.low < s.step) :
      HasFault s f (.stepTooLarge s.step (s.high - s.low).toNat)

variable {s : Stride} {f : Field} {v : Nat}

/-- A stride within a field holds values of the field only. -/
theorem bounds_of_holds (within : s.IsWithin f) (h : s.Holds v) :
    f.least ≤ v ∧ v ≤ f.greatest := by
  obtain ⟨least, _, greatest, _⟩ := within
  obtain ⟨low, high, _⟩ := h
  omega

/-- A single value is the only one of its stride. -/
theorem holds_single {low : Int} : Holds ⟨low, low, 0⟩ v ↔ v = low := by
  unfold Holds
  simp only [Int.natCast_zero, Int.zero_dvd]
  omega

end Stride

namespace Field

variable {f : Field} {low high value : Int} {step v l h i : Nat}

theorem checkBound_eq_ok_iff :
    f.checkBound value = .ok v ↔ f.least ≤ value ∧ value ≤ f.greatest ∧ value = v := by
  unfold checkBound
  split
  · exact ⟨nofun, fun _ => by omega⟩
  · split
    · exact ⟨nofun, fun _ => by omega⟩
    · rw [Except.ok.injEq]
      omega

theorem checkBound_eq_error_iff {fault : Fault} :
    f.checkBound value = .error fault ↔
      value < f.least ∧ fault = .belowMinimum value f.least ∨
        f.greatest < value ∧ fault = .aboveMaximum value f.greatest := by
  have order := f.least_le_greatest
  unfold checkBound
  split
  · rename_i below
    rw [Except.error.injEq]
    constructor
    · rintro rfl
      exact .inl ⟨below, rfl⟩
    · rintro (⟨_, rfl⟩ | ⟨above, _⟩)
      · rfl
      · omega
  · split
    · rename_i above
      rw [Except.error.injEq]
      constructor
      · rintro rfl
        exact .inr ⟨above, rfl⟩
      · rintro (⟨below, _⟩ | ⟨_, rfl⟩)
        · omega
        · rfl
    · exact ⟨nofun, fun _ => by omega⟩

/-- The test passes the strides within a field. -/
theorem check_eq_ok_iff :
    f.check low high step = .ok (l, h) ↔
      Stride.IsWithin ⟨low, high, step⟩ f ∧ low = l ∧ high = h := by
  unfold check Stride.IsWithin
  simp only [Except.bind_eq_ok_iff, checkBound_eq_ok_iff]
  constructor
  · rintro ⟨a, ⟨_, _, rfl⟩, b, ⟨_, _, rfl⟩, passed⟩
    split at passed
    · cases passed
    · split at passed
      · cases passed
      · cases passed
        omega
  · rintro ⟨⟨least, order, greatest, fits⟩, rfl, rfl⟩
    refine ⟨l, by omega, h, by omega, ?_⟩
    rw [if_neg (by omega), if_neg (by omega)]

/-- The test tells of every other stride what is wrong with it. -/
theorem check_eq_error_iff {fault : Fault} :
    f.check low high step = .error fault ↔ Stride.HasFault ⟨low, high, step⟩ f fault := by
  unfold check
  simp only [Except.bind_eq_error_iff, checkBound_eq_error_iff, checkBound_eq_ok_iff]
  constructor
  · rintro ((⟨below, rfl⟩ | ⟨above, rfl⟩) | ⟨l, ⟨least, greatest, rfl⟩,
      (⟨below, rfl⟩ | ⟨above, rfl⟩) | ⟨h, ⟨least', greatest', rfl⟩, failed⟩⟩)
    · exact .lowBelow below
    · exact .lowAbove above
    · exact .highBelow ⟨least, greatest⟩ below
    · exact .highAbove ⟨least, greatest⟩ above
    · split at failed
      · cases failed
        exact .inverted greatest least' (by simp only; omega)
      · split at failed
        · cases failed
          have span : ((h : Int) - (l : Int)).toNat = h - l := by omega
          rw [← span]
          exact .leaves least greatest' (by simp only; omega) (by simp only; omega)
        · cases failed
  · intro wrong
    cases wrong with
    | lowBelow below => exact .inl (.inl ⟨below, rfl⟩)
    | lowAbove above => exact .inl (.inr ⟨above, rfl⟩)
    | highBelow inside below =>
      simp only at inside below
      exact .inr ⟨low.toNat, by omega, .inl (.inl ⟨below, rfl⟩)⟩
    | highAbove inside above =>
      simp only at inside above
      exact .inr ⟨low.toNat, by omega, .inl (.inr ⟨above, rfl⟩)⟩
    | inverted greatest least inverted =>
      simp only at greatest least inverted
      refine .inr ⟨low.toNat, by omega, .inr ⟨high.toNat, by omega, ?_⟩⟩
      rw [if_pos (by omega)]
    | leaves least greatest order leaves =>
      simp only at least greatest order leaves
      refine .inr ⟨low.toNat, by omega, .inr ⟨high.toNat, by omega, ?_⟩⟩
      rw [if_neg (by omega), if_pos (by omega)]
      have span : high.toNat - low.toNat = (high - low).toNat := by omega
      rw [span]

theorem rangeSet_eq_error_iff {fault : Fault} :
    f.rangeSet low high step = .error fault ↔ Stride.HasFault ⟨low, high, step⟩ f fault := by
  unfold rangeSet
  simp only [Except.bind_eq_error_iff, check_eq_error_iff]
  exact ⟨fun h => h.elim id nofun, .inl⟩

theorem rangeSet_eq_ok_iff {set : BitSet 64} :
    f.rangeSet low high step = .ok set ↔
      ∃ l h : Nat, Stride.IsWithin ⟨low, high, step⟩ f ∧ (low = l ∧ high = h) ∧
        f.encode l h step = set := by
  unfold rangeSet
  simp only [Except.bind_eq_ok_iff, Prod.exists, check_eq_ok_iff, Except.ok.injEq, and_assoc]

/-- A range within the bounds that its step does not leave passes the test. -/
theorem rangeSet_eq_ok (hlow : f.least ≤ l) (hle : l ≤ h) (hhigh : h ≤ f.greatest)
    (hstep : step ≤ h - l ∨ h = l) : f.rangeSet l h step = .ok (f.encode l h step) := by
  refine rangeSet_eq_ok_iff.2 ⟨l, h, ?_, ⟨rfl, rfl⟩, rfl⟩
  simp only [Stride.IsWithin]
  omega

/-- A stride is taken or has a fault. -/
theorem exists_rangeSet_iff :
    (∃ set, f.rangeSet low high step = .ok set) ↔ Stride.IsWithin ⟨low, high, step⟩ f := by
  simp only [rangeSet_eq_ok_iff]
  constructor
  · rintro ⟨_, _, _, within, _⟩
    exact within
  · intro within
    obtain ⟨least, order, _⟩ := id within
    simp only at least order
    exact ⟨_, low.toNat, high.toNat, within, by omega, rfl⟩

/-- The set of a stride holds the places of its values. -/
theorem getLsbD_rangeSet {set : BitSet 64} (made : f.rangeSet low high step = .ok set) :
    set.getLsbD i = true ↔ ∃ v, Stride.Holds ⟨low, high, step⟩ v ∧ f.slot v = i := by
  obtain ⟨l, h, ⟨least, order, greatest, _⟩, ⟨rfl, rfl⟩, rfl⟩ := rangeSet_eq_ok_iff.1 made
  simp only at least order greatest
  rw [getLsbD_encode (by omega) (by omega) (by omega)]
  apply exists_congr
  intro v
  unfold Stride.Holds
  simp only [Int.ofNat_le]
  constructor
  · rintro ⟨low, high, whole, same⟩
    refine ⟨⟨low, high, ?_⟩, same⟩
    rw [← Int.ofNat_sub low]
    exact Int.natCast_dvd_natCast.2 whole
  · rintro ⟨⟨low, high, whole⟩, same⟩
    rw [← Int.ofNat_sub low] at whole
    exact ⟨low, high, Int.natCast_dvd_natCast.1 whole, same⟩

end Field

end Recurrence
