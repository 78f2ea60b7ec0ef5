import Recurrence.Proofs.Expression.Grammar

/-!
# Written items

An item is written with the sign of its field's marker, its values, and its step
(`Expression.Item.write`). What was written spells the item in the column where its field stands
(`Expression.Item.spelled_write`), so that it is read back as the same item.
-/

namespace Recurrence

/-! ## Where a field stands -/

namespace Field

/-- The marker of the items of a field, if they need one. -/
def marker? : Field → Option Marker
  | lastDay => some .fromEnd
  | strictWeekday => some .narrowing
  | _ => none

/-- The column in which the items of a field stand. -/
def column (f : Field) : Field :=
  (f.marker?.map Marker.column).getD f

/-- What stands before the values of an item of a field. -/
def signs (f : Field) : List Char :=
  (f.marker?.map Marker.sign).toList

/-- The fields whose items stand in a column. -/
def counted (column : Field) : List Field :=
  all.filter (·.column = column)

theorem mem_counted {column f : Field} : f ∈ column.counted ↔ f.column = column := by
  have member : f ∈ all := by cases f <;> decide
  simp [counted, member]

theorem target_marker? (f : Field) : (f.marker?.map Marker.target).getD f.column = f := by
  cases f <;> rfl

end Field

namespace Expression

namespace Extent

/-- Writes the values that an item names. -/
def write : Extent → List Char
  | any => ['*']
  | one value => Decimal.write value
  | between low high => Decimal.write low ++ '-' :: Decimal.write high

/-- Whether the numbers of an extent are small enough to be read. -/
def Fits : Extent → Prop
  | any => True
  | one value => value ≤ Field.largestLiteral
  | between low high => low ≤ Field.largestLiteral ∧ high ≤ Field.largestLiteral

instance : (e : Extent) → Decidable e.Fits
  | any => inferInstanceAs (Decidable True)
  | one value => inferInstanceAs (Decidable (value ≤ Field.largestLiteral))
  | between _ _ => inferInstanceAs (Decidable (_ ∧ _))

variable {e : Extent} {c : Char}

theorem write_ne_nil (e : Extent) : e.write ≠ [] := by
  cases e with
  | any => exact List.cons_ne_nil _ _
  | one value => exact Decimal.write_ne_nil value
  | between low high => exact List.append_ne_nil_of_left_ne_nil (Decimal.write_ne_nil low) _

theorem spelled_write {f : Field} (fits : e.Fits) : e.Spelled f e.write := by
  cases e with
  | any => exact .any (.inl rfl)
  | one value => exact .one (.number (Decimal.isNumeral_write value) fits)
  | between low high =>
    exact .between (.number (Decimal.isNumeral_write low) fits.1)
      (.number (Decimal.isNumeral_write high) fits.2)

theorem mem_write (h : c ∈ e.write) : c = '*' ∨ c = '-' ∨ c.isDigit = true := by
  cases e with
  | any => exact .inl (List.mem_singleton.1 h)
  | one value => exact .inr (.inr (Decimal.isDigit_of_mem_write h))
  | between low high =>
    rcases List.mem_append.1 h with h | h
    · exact .inr (.inr (Decimal.isDigit_of_mem_write h))
    · rcases List.mem_cons.1 h with rfl | h
      · exact .inr (.inl rfl)
      · exact .inr (.inr (Decimal.isDigit_of_mem_write h))

end Extent

/-! ## Steps -/

/-- Writes the step of an item, if it has one. -/
def writeStep : Option Nat → List Char
  | none => []
  | some step => '/' :: Decimal.write step

theorem spelled_writeStep {step : Option Nat} (fits : ∀ s ∈ step, 0 < s ∧ s ≤ largestStep) :
    StepSpelled (writeStep step) step := by
  cases step with
  | none => exact .none
  | some step =>
    obtain ⟨positive, small⟩ := fits step rfl
    exact .some (Decimal.isNumeral_write step) positive small

/-! ## Items -/

namespace Item

/-- Writes an item. -/
def write (item : Item) : List Char :=
  item.target.signs ++ (item.extent.write ++ writeStep item.step)

theorem write_ne_nil (item : Item) : item.write ≠ [] :=
  List.append_ne_nil_of_right_ne_nil _
    (List.append_ne_nil_of_left_ne_nil item.extent.write_ne_nil _)

/-- An item that can be read: its numbers are small enough, its step is positive, and a wildcard has
no marker. -/
structure IsReadable (item : Item) : Prop where
  fits : item.extent.Fits
  plain : item.extent = .any → item.target.marker? = none
  step : ∀ s ∈ item.step, 0 < s ∧ s ≤ largestStep

instance (item : Item) : Decidable item.IsReadable :=
  decidable_of_iff
    (item.extent.Fits ∧ (item.extent = .any → item.target.marker? = none) ∧
      ∀ s ∈ item.step, 0 < s ∧ s ≤ largestStep)
    ⟨fun h => ⟨h.1, h.2.1, h.2.2⟩, fun h => ⟨h.fits, h.plain, h.step⟩⟩

/-- What was written spells the item. -/
theorem spelled_write {item : Item} (h : item.IsReadable) :
    Spelled item.target.column item.write item := by
  obtain ⟨f, extent, step⟩ := item
  have place : ∀ m ∈ f.marker?, m.column = f.column := by
    intro m marked
    unfold Field.column
    rw [marked]
    rfl
  have spelled := Spelled.mk f.marker? place h.plain (Extent.spelled_write h.fits)
    (spelled_writeStep h.step)
  rw [f.target_marker?] at spelled
  exact spelled

/-- The characters of written items. -/
theorem mem_write {item : Item} {c : Char} (h : c ∈ item.write) :
    c ∈ ['*', '-', '/', '^', '&'] ∨ c.isDigit = true := by
  rcases List.mem_append.1 h with h | h
  · refine .inl ?_
    revert h
    cases item.target <;> simp +contextual [Field.signs, Field.marker?, Marker.sign]
  · rcases List.mem_append.1 h with h | h
    · rcases Extent.mem_write h with rfl | rfl | digit
      · exact .inl (by decide)
      · exact .inl (by decide)
      · exact .inr digit
    · cases written : item.step with
      | none =>
        rw [written] at h
        cases h
      | some step =>
        rw [written] at h
        rcases List.mem_cons.1 h with rfl | h
        · exact .inl (by decide)
        · exact .inr (Decimal.isDigit_of_mem_write h)

/-- What was written holds nothing that separates items or columns, nor what begins a preset. -/
theorem solid_of_mem_write {item : Item} {c : Char} (h : c ∈ item.write) :
    isBlank c = false ∧ c ≠ ',' ∧ c ≠ '@' := by
  rcases mem_write h with symbol | digit
  · simp only [List.mem_cons, List.not_mem_nil, or_false] at symbol
    rcases symbol with rfl | rfl | rfl | rfl | rfl <;> decide
  · refine ⟨Bool.eq_false_iff.2 fun blank => ?_, ?_, ?_⟩
    · simp only [isBlank, Bool.or_eq_true, decide_eq_true_eq] at blank
      rcases blank with (((rfl | rfl) | rfl) | rfl) | rfl <;> cases digit
    · rintro rfl
      cases digit
    · rintro rfl
      cases digit

end Item

/-- What was written counts for the item's field, there with the item's set or its fault. -/
theorem itemSet_write {item : Item} (h : item.IsReadable) :
    itemSet item.target.column item.write =
      match item.set with
      | .ok set => .ok (item.target, set)
      | .error fault => .error (item.target, fault) := by
  simp only [itemSet, Item.read_eq_ok_iff.2 (Item.spelled_write h)]
  cases item.set <;> rfl

end Expression

end Recurrence
