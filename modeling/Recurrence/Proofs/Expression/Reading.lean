import Mathlib.Logic.Basic
import Recurrence.Expression.Reader
import Recurrence.Proofs.Expression.Grammar
import Recurrence.Proofs.Rule.Defaults

/-!
# What an expression chooses

An item stands for a stride of its field (`Item.stride`), save that a lone wildcard leaves days and
weekdays open (`Item.chosen`). Items, columns and rows gather what they stand for
(`gathers_addItem`, `gathers_addColumn`), so an expression is read as the rule of the values that
its items choose together (`read_eq_ok_iff_spelled`).
-/

namespace Recurrence

namespace Expression

/-! ## Items -/

namespace Item

/-- The stride that an item names. A value with a step runs on to the field's largest value. -/
def stride (item : Item) : Stride :=
  match item.extent, item.step with
  | .any, step => ⟨item.target.least, item.target.greatest, step.getD 1⟩
  | .one v, none => ⟨v, v, 0⟩
  | .one v, some step => ⟨v, item.target.greatest, step⟩
  | .between low high, step => ⟨low, high, step.getD 1⟩

/-- A lone wildcard leaves the choice of days to the other of the two day columns. -/
def LeavesOpen (item : Item) : Prop :=
  item.extent = .any ∧ item.step = none ∧ (item.target = .day ∨ item.target = .weekday)

/-- The values that an item chooses. -/
def chosen (item : Item) : Choices :=
  fun f v => f = item.target ∧ ¬item.LeavesOpen ∧ item.stride.Holds v

variable {item : Item} {set : BitSet 64}

theorem set_of_leavesOpen (h : item.LeavesOpen) : item.set = .ok 0 := by
  obtain ⟨any, alone, choosing⟩ := h
  rw [set, any, alone]
  exact congrArg _ (if_pos choosing)

/-- The set of any other item is that of its stride. Two values in falling order have no step of
their own, so that they are one value or none in either reading. -/
theorem exists_set_eq_rangeSet (h : ¬item.LeavesOpen) :
    ∃ step, item.set = item.target.rangeSet item.stride.low item.stride.high step ∧
      (Stride.IsWithin ⟨item.stride.low, item.stride.high, step⟩ item.target ↔
        item.stride.IsWithin item.target) ∧
      ∀ v, Stride.Holds ⟨item.stride.low, item.stride.high, step⟩ v ↔ item.stride.Holds v := by
  obtain ⟨f, extent, step⟩ := item
  cases extent with
  | any =>
    cases step with
    | some step => exact ⟨step, rfl, Iff.rfl, fun _ => Iff.rfl⟩
    | none =>
      refine ⟨1, ?_, Iff.rfl, fun _ => Iff.rfl⟩
      have other : ¬(f = .day ∨ f = .weekday) := fun choosing => h ⟨rfl, rfl, choosing⟩
      have whole : f.rangeSet f.least f.greatest 1 = .ok (f.encode f.least f.greatest 1) :=
        Field.rangeSet_eq_ok (Nat.le_refl _) f.least_le_greatest (Nat.le_refl _)
          (.inl (by cases f <;> decide))
      exact (congrArg _ (if_neg other)).trans whole.symm
  | one v => cases step <;> exact ⟨_, rfl, Iff.rfl, fun _ => Iff.rfl⟩
  | between low high =>
    cases step with
    | some step => exact ⟨step, rfl, Iff.rfl, fun _ => Iff.rfl⟩
    | none =>
      by_cases order : low < high
      · refine ⟨1, ?_, Iff.rfl, fun _ => Iff.rfl⟩
        simp only [set, stride, order, if_true]
      · refine ⟨0, by simp only [set, stride, order, if_false], ?_, fun v => ?_⟩
        · simp only [Stride.IsWithin, stride, Option.getD_none]
          omega
        · simp only [Stride.Holds, stride, Option.getD_none, Int.natCast_zero, Int.zero_dvd]
          omega

theorem exists_set_iff : (∃ set, item.set = .ok set) ↔ item.stride.IsWithin item.target := by
  by_cases leaves : item.LeavesOpen
  · have whole : item.stride.IsWithin item.target := by
      obtain ⟨any, alone, _⟩ := leaves
      rw [stride, any, alone]
      cases item.target <;> decide
    exact ⟨fun _ => whole, fun _ => ⟨0, set_of_leavesOpen leaves⟩⟩
  · obtain ⟨step, same, within, _⟩ := exists_set_eq_rangeSet leaves
    rw [same, Field.exists_rangeSet_iff]
    exact within

theorem adds_insert_set (made : item.set = .ok set) (s : Selection) :
    s.Adds item.chosen (s.insert item.target set) := by
  by_cases leaves : item.LeavesOpen
  · rw [set_of_leavesOpen leaves] at made
    cases made
    apply (Selection.adds_insert_zero s item.target).congr
    intro f v
    simp only [chosen, leaves, not_true_eq_false, false_and, and_false]
  · obtain ⟨step, same, _, holds⟩ := exists_set_eq_rangeSet leaves
    rw [same] at made
    apply (Selection.adds_insert made s).congr
    intro f v
    simp only [chosen, leaves, not_false_eq_true, true_and, holds]

end Item

/-! ## Columns -/

/-- Some text of a column spells an item whose values lie within the item's field. -/
def IsItem (column : Field) (text : List Char) : Prop :=
  ∃ item, Item.Spelled column text item ∧ item.stride.IsWithin item.target

/-- The values that some text of a column chooses. -/
def choicesOfItem (column : Field) (text : List Char) : Choices :=
  fun f v => ∃ item, Item.Spelled column text item ∧ item.chosen f v

theorem itemSet_eq_ok_iff {column f : Field} {text : List Char} {set : BitSet 64} :
    itemSet column text = .ok (f, set) ↔
      ∃ item, Item.Spelled column text item ∧ item.target = f ∧ item.set = .ok set := by
  rw [itemSet]
  constructor
  · intro h
    split at h
    · cases h
    · rename_i item read
      split at h
      · cases h
      · rename_i made
        cases h
        exact ⟨item, Item.read_eq_ok_iff.1 read, rfl, made⟩
  · intro h
    obtain ⟨item, spelled, rfl, made⟩ := h
    simp only [Item.read_eq_ok_iff.2 spelled, made]

/-- Some text spells one item at most. -/
theorem Item.Spelled.unique {column : Field} {text : List Char} {item item' : Item}
    (h : Spelled column text item) (h' : Spelled column text item') : item = item' := by
  have read := read_eq_ok_iff.2 h
  rw [read_eq_ok_iff.2 h'] at read
  exact (Except.ok.inj read).symm

theorem gathers_addItem (input : String) (column : Field) :
    Gathers (addItem input column) (fun t => IsItem column t.1.text)
      (fun t => choicesOfItem column t.1.text) where
  accepts {t} good s := by
    obtain ⟨item, spelled, within⟩ := good
    obtain ⟨set, made⟩ := Item.exists_set_iff.2 within
    refine ⟨s.insert item.target set, ?_⟩
    simp only [addItem, itemSet_eq_ok_iff.2 ⟨item, spelled, rfl, made⟩]
  adds {s t s'} added := by
    unfold addItem at added
    split at added
    · rename_i target set read
      cases added
      obtain ⟨item, spelled, rfl, made⟩ := itemSet_eq_ok_iff.1 read
      refine ⟨⟨item, spelled, Item.exists_set_iff.1 ⟨set, made⟩⟩, ?_⟩
      apply (Item.adds_insert_set made s).congr
      intro f v
      constructor
      · intro chosen
        exact ⟨item, spelled, chosen⟩
      · intro chosen
        obtain ⟨other, spelled', chosen⟩ := chosen
        rwa [spelled.unique spelled']
    · cases added

theorem map_text_zipIdx_items (t : Token) :
    (t.items.zipIdx 1).map (fun item => item.1.text) = t.text.splitOn ',' := by
  have first : (t.items.zipIdx 1).map Prod.fst = t.items := List.zipIdx_map_fst 1 t.items
  rw [← t.map_text_items, ← first, List.map_map, first]
  rfl

/-- Each item of some text spells an item of a column. -/
def IsColumn (column : Field) (text : List Char) : Prop :=
  ∀ item ∈ text.splitOn ',', IsItem column item

/-- The values that the items of a column choose. -/
def choicesOfColumn (column : Field) (text : List Char) : Choices :=
  fun f v => ∃ item ∈ text.splitOn ',', choicesOfItem column item f v

theorem gathers_addColumn (input : String) :
    Gathers (addColumn input) (fun c => IsColumn c.1 c.2.text)
      (fun c => choicesOfColumn c.1 c.2.text) where
  accepts {c} good s := by
    apply (gathers_addItem input c.1).foldlM.accepts
    rw [IsColumn, ← map_text_zipIdx_items] at good
    exact List.forall_mem_map.1 good
  adds {s c s'} added := by
    obtain ⟨good, adds⟩ := (gathers_addItem input c.1).foldlM.adds added
    rw [IsColumn, ← map_text_zipIdx_items]
    refine ⟨List.forall_mem_map.2 good, adds.congr fun f v => ?_⟩
    simp only [choicesOfColumn, ← map_text_zipIdx_items, List.mem_map, exists_exists_and_eq_and]

/-! ## Rows -/

/-- The values that a row of columns chooses. -/
def choicesOfRow (row : List (Field × List Char)) : Choices :=
  fun f v => ∃ c ∈ row, choicesOfColumn c.1 c.2 f v

theorem isBounded_choicesOfRow {row : List (Field × List Char)}
    (good : ∀ c ∈ row, IsColumn c.1 c.2) : (choicesOfRow row).IsBounded := by
  intro f v chosen
  obtain ⟨c, column, text, piece, item, spelled, rfl, _, holds⟩ := chosen
  obtain ⟨other, spelled', within⟩ := good c column text piece
  rw [← spelled.unique spelled'] at within
  exact Stride.bounds_of_holds within holds

theorem gathers_row (input : String) (fields : List Field) :
    Gathers (fun s columns => (fields.zip columns).foldlM (addColumn input) s)
      (fun columns => ∀ c ∈ fields.zip (columns.map Token.text), IsColumn c.1 c.2)
      (fun columns => choicesOfRow (fields.zip (columns.map Token.text))) where
  accepts {columns} good s := by
    apply (gathers_addColumn input).foldlM.accepts
    rw [List.zip_map_right] at good
    exact List.forall_mem_map.1 good
  adds {s columns s'} added := by
    obtain ⟨good, adds⟩ := (gathers_addColumn input).foldlM.adds added
    rw [List.zip_map_right]
    refine ⟨List.forall_mem_map.2 good, adds.congr fun f v => ?_⟩
    simp only [choicesOfRow, List.mem_map, exists_exists_and_eq_and]
    exact Iff.rfl

theorem most_lt (o : Options) : o.most < 7 := by
  unfold Options.most
  split <;> omega

theorem layout?_eq_none_iff {o : Options} {count : Nat} :
    o.layout? count = none ↔ count < o.fewest ∨ o.most < count := by
  unfold Options.layout?
  split
  · rename_i within
    exact ⟨nofun, fun outside => by omega⟩
  · rename_i outside
    exact ⟨fun _ => by omega, fun _ => rfl⟩

theorem layout?_bounds {o : Options} {count : Nat} {fields : List Field}
    (h : o.layout? count = some fields) :
    o.fewest ≤ fields.length ∧ fields.length ≤ o.most ∧ fields.length = count := by
  have bounds : o.fewest ≤ count ∧ count ≤ o.most := by
    have some : o.layout? count ≠ none := by simp [h]
    rw [Ne, layout?_eq_none_iff] at some
    omega
  have whole : ∀ o : Options, ∀ count < 7, ∀ fields ∈ o.layout? count, fields.length = count := by
    intro o
    obtain ⟨seconds, weekdayOptional, presets⟩ := o
    cases seconds <;> cases weekdayOptional <;> cases presets <;> decide
  have most := most_lt o
  have same := whole o count (by omega) fields h
  rw [same]
  exact ⟨bounds.1, bounds.2, rfl⟩

theorem readColumns_eq_ok_iff {o : Options} {input : String} {columns : List Token} {r : Rule} :
    readColumns o input columns = .ok r ↔
      ∃ fields, o.layout? columns.length = some fields ∧
        (o.fewest ≤ fields.length ∧ fields.length ≤ o.most ∧ fields.length = columns.length) ∧
        (∀ c ∈ fields.zip (columns.map Token.text), IsColumn c.1 c.2) ∧
        r.Realises (choicesOfRow (fields.zip (columns.map Token.text))) := by
  unfold readColumns
  cases layout : o.layout? columns.length with
  | none => exact ⟨nofun, nofun⟩
  | some fields =>
    simp only [(gathers_row input fields).toRule_eq_ok_iff isBounded_choicesOfRow,
      Option.some.injEq, exists_eq_left']
    exact (and_iff_right (layout?_bounds layout)).symm

/-! ## Presets -/

theorem Char.eq_at_of_toLower {c : Char} (h : c.toLower = '@') : c = '@' := by
  unfold Char.toLower at h
  split at h
  · rename_i upper
    have low : 65 ≤ c.val := upper.1
    have high : c.val ≤ 90 := upper.2
    have same : c.val + 32 = 64 := congrArg Char.val h
    rw [UInt32.le_iff_toNat_le] at low high
    rw [← UInt32.toNat_inj, UInt32.toNat_add] at same
    simp only [UInt32.reduceToNat] at low high same
    omega
  · exact h

namespace Preset

/-- The values that a preset chooses. -/
def Chooses (preset : Preset) : Choices :=
  fun f v => (f, v) ∈ preset.choices

/-- Some text names a preset, in any mix of cases. -/
def IsNamed (preset : Preset) (text : List Char) : Prop :=
  ∃ name ∈ preset.names, text.map Char.toLower = name.toList

theorem adds_insert_encode (s : Selection) (choices : List (Field × Nat))
    (bounded : ∀ p ∈ choices, p.1.least ≤ p.2 ∧ p.2 ≤ p.1.greatest) :
    s.Adds (fun f v => (f, v) ∈ choices)
      (choices.foldl (fun s (f, v) => s.insert f (f.encode v v 0)) s) := by
  induction choices generalizing s with
  | nil =>
    apply (Selection.Adds.nothing s).congr
    intro f v
    simp only [List.not_mem_nil]
  | cons p choices ih =>
    obtain ⟨least, greatest⟩ := bounded p List.mem_cons_self
    have made : p.1.rangeSet p.2 p.2 0 = .ok (p.1.encode p.2 p.2 0) :=
      Field.rangeSet_eq_ok least (Nat.le_refl _) greatest (.inr rfl)
    have rest := ih (s.insert p.1 (p.1.encode p.2 p.2 0)) fun q member =>
      bounded q (List.mem_cons_of_mem p member)
    apply ((Selection.adds_insert made s).trans rest).congr
    intro f v
    rw [Stride.holds_single, List.mem_cons, Prod.ext_iff, Int.natCast_inj]

theorem realises_rule (preset : Preset) : preset.rule.Realises preset.Chooses := by
  have bounded : ∀ p ∈ preset.choices, p.1.least ≤ p.2 ∧ p.2 ≤ p.1.greatest := by
    cases preset <;> decide
  apply Selection.realises_toRule (adds_insert_encode Selection.empty preset.choices bounded)
  intro f v chosen
  exact bounded (f, v) chosen

/-- No name is shared by two presets. -/
theorem eq_of_mem_names {preset preset' : Preset} {name : String} (h : name ∈ preset.names)
    (h' : name ∈ preset'.names) : preset = preset' := by
  revert name
  cases preset <;> cases preset' <;> decide

theorem ofName?_eq_some_iff {text : List Char} {preset : Preset} :
    ofName? text = some preset ↔ preset.IsNamed text := by
  have named : ∀ preset : Preset,
      preset.names.any (fun name => name.toList == text.map Char.toLower) = true ↔
        preset.IsNamed text := by
    intro preset
    rw [List.any_eq_true]
    apply exists_congr
    intro name
    rw [beq_iff_eq, eq_comm]
  unfold ofName?
  constructor
  · intro found
    have hit := List.find?_some found
    exact (named preset).1 hit
  · intro h
    cases found : all.find? _ with
    | none =>
      have member : preset ∈ all := by cases preset <;> decide
      exact absurd ((named preset).2 h) (List.find?_eq_none.1 found preset member)
    | some other =>
      obtain ⟨name, member, same⟩ := h
      have hit := List.find?_some found
      obtain ⟨name', member', same'⟩ := (named other).1 hit
      rw [same, String.toList_inj] at same'
      rw [← same'] at member'
      rw [eq_of_mem_names member member']

theorem head?_of_isNamed {preset : Preset} {word : List Char} (h : preset.IsNamed word) :
    word.head? = some '@' := by
  obtain ⟨name, member, same⟩ := h
  have sign : ∀ preset : Preset, ∀ name ∈ preset.names, name.toList.head? = some '@' := by
    intro preset
    cases preset <;> decide
  have first := sign preset name member
  rw [← same, List.head?_map, Option.map_eq_some_iff] at first
  obtain ⟨c, first, lower⟩ := first
  rw [first, Char.eq_at_of_toLower lower]

end Preset

theorem readPreset_eq_ok_iff {o : Options} {input : String} {word : Token} {alone : Bool}
    {r : Rule} :
    readPreset o input word alone = .ok r ↔
      alone = true ∧ o.presets = true ∧
        ∃ preset : Preset, preset.IsNamed word.text ∧ r.Realises preset.Chooses := by
  unfold readPreset
  constructor
  · intro h
    split at h
    · cases h
    · rename_i lone
      split at h
      · cases h
      · rename_i enabled
        split at h
        · rename_i preset named
          cases h
          exact ⟨by simpa using lone, by simpa using enabled, preset,
            Preset.ofName?_eq_some_iff.1 named, preset.realises_rule⟩
        · cases h
  · intro h
    obtain ⟨rfl, enabled, preset, named, realises⟩ := h
    rw [realises.unique preset.realises_rule]
    simp only [enabled, Preset.ofName?_eq_some_iff.2 named, Bool.not_true, Bool.false_eq_true,
      if_false]

/-- A preset is the only word of its expression. -/
theorem readPreset_words_eq_ok_iff {o : Options} {input : String} {word : Token}
    {others : List Token} {r : Rule} :
    readPreset o input word ((word :: others).length = 1) = .ok r ↔
      ∃ (text : List Char) (preset : Preset), (word :: others).map Token.text = [text] ∧
        o.presets = true ∧ preset.IsNamed text ∧ r.Realises preset.Chooses := by
  rw [readPreset_eq_ok_iff, decide_eq_true_eq]
  constructor
  · intro h
    obtain ⟨alone, enabled, preset, named, realises⟩ := h
    obtain rfl : others = [] := List.length_eq_zero_iff.1 (Nat.succ.inj alone)
    exact ⟨word.text, preset, rfl, enabled, named, realises⟩
  · intro h
    obtain ⟨text, preset, alone, enabled, named, realises⟩ := h
    obtain ⟨rfl, none⟩ := List.cons_eq_cons.1 alone
    obtain rfl := List.map_eq_nil_iff.1 none
    exact ⟨rfl, enabled, preset, named, realises⟩

/-! ## Expressions -/

/-- The columns of an expression. -/
def columnTexts (input : String) : List (List Char) :=
  (input.toList.splitOnP isBlank).filter (· ≠ [])

theorem columnTexts_eq (input : String) :
    columnTexts input = (words input.toList).map Token.text :=
  (map_text_words input.toList).symm

theorem length_columnTexts (input : String) :
    (columnTexts input).length = (words input.toList).length := by
  rw [columnTexts_eq, List.length_map]

theorem read_eq_readColumns {o : Options} {input : String}
    (h : ∀ word ∈ (columnTexts input).head?, word.head? ≠ some '@') :
    read o input = readColumns o input (words input.toList) := by
  have sign :
      (words input.toList).head?.filter (fun word => word.text.head? = some '@') = none := by
    rw [Option.filter_eq_none_iff]
    intro word first begins
    refine h word.text ?_ (of_decide_eq_true begins)
    rw [columnTexts_eq, List.head?_map, first]
    rfl
  simp only [read, sign]

/-- **An expression is read as its grammar says, and nothing else is.** Either its only word names a
preset, or it is a row of as many columns as the options allow, each a list of items of the field
that it stands for. The rule realises what the preset or the items choose. -/
theorem read_eq_ok_iff_spelled (o : Options) (input : String) (r : Rule) :
    read o input = .ok r ↔
      (∃ (word : List Char) (preset : Preset), columnTexts input = [word] ∧ o.presets = true ∧
        preset.IsNamed word ∧ r.Realises preset.Chooses) ∨
      ((∀ word ∈ (columnTexts input).head?, word.head? ≠ some '@') ∧
        ∃ fields, o.layout? (columnTexts input).length = some fields ∧
          (o.fewest ≤ fields.length ∧ fields.length ≤ o.most ∧
            fields.length = (columnTexts input).length) ∧
          (∀ c ∈ fields.zip (columnTexts input), IsColumn c.1 c.2) ∧
          r.Realises (choicesOfRow (fields.zip (columnTexts input)))) := by
  have texts : columnTexts input = (words input.toList).map Token.text := (map_text_words _).symm
  rw [texts]
  unfold read
  generalize words input.toList = columns
  cases sign : columns.head?.filter (fun word => word.text.head? = some '@') with
  | some word =>
    simp only [sign]
    obtain ⟨first, begins⟩ := Option.filter_eq_some_iff.1 sign
    have begins : word.text.head? = some '@' := of_decide_eq_true begins
    obtain ⟨others, rfl⟩ := List.head?_eq_some_iff.1 first
    rw [readPreset_words_eq_ok_iff, or_iff_left]
    intro row
    exact row.1 word.text rfl begins
  | none =>
    simp only [sign]
    rw [Option.filter_eq_none_iff] at sign
    rw [readColumns_eq_ok_iff, List.length_map, or_iff_right, and_iff_right]
    · intro text first begins
      rw [List.head?_map, Option.mem_def, Option.map_eq_some_iff] at first
      obtain ⟨word, first, rfl⟩ := first
      exact sign word first (decide_eq_true begins)
    · intro h
      obtain ⟨text, preset, alone, _, named, _⟩ := h
      obtain ⟨word, rfl, rfl⟩ := List.map_eq_singleton_iff.1 alone
      exact sign word rfl (decide_eq_true (Preset.head?_of_isNamed named))

end Expression

end Recurrence
