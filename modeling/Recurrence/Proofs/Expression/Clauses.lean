import Recurrence.Proofs.Expression.Column
import Recurrence.Proofs.Expression.Reading
import Recurrence.Proofs.Rule.Clause

/-!
# Expressions and clauses agree

Each item of an expression has its clause (`Expression.Item.clause`), which asks for the same set
(`Expression.Item.set_clause`). An expression that is written item by item and the clauses of its
items, taken in the same order, come to the same rule or stop at the same fault
(`Expression.agree_read_ofClauses`): one item and one clause agree (`Expression.agree_addItem`), so
do a column of items and its clauses (`Expression.agree_addColumn`), and so do whole rows, by
`Expression.Agree.foldlM` each time.
-/

namespace Recurrence

/-! ## Strides with the same set -/

/-- Strides with the same values and the same faults have the same set. -/
theorem Field.rangeSet_congr {f : Field} {low high low' high' : Int} {step step' : Nat}
    (values : ∀ v, Stride.Holds ⟨low, high, step⟩ v ↔ Stride.Holds ⟨low', high', step'⟩ v)
    (faults : ∀ fault, Stride.HasFault ⟨low, high, step⟩ f fault ↔
      Stride.HasFault ⟨low', high', step'⟩ f fault) :
    f.rangeSet low high step = f.rangeSet low' high' step' := by
  cases made : f.rangeSet low high step with
  | error fault =>
    have fault := (faults fault).1 (rangeSet_eq_error_iff.1 made)
    exact (rangeSet_eq_error_iff.2 fault).symm
  | ok set =>
    cases made' : f.rangeSet low' high' step' with
    | error fault =>
      rw [rangeSet_eq_error_iff.2 ((faults fault).2 (rangeSet_eq_error_iff.1 made'))] at made
      cases made
    | ok set' =>
      refine congrArg _ (BitSet.ext_getLsbD fun i => ?_)
      rw [getLsbD_rangeSet made, getLsbD_rangeSet made']
      simp only [values]

/-- Where a range does not rise, its step makes no difference. -/
theorem Field.rangeSet_one {f : Field} {low high : Int} (h : high ≤ low) :
    f.rangeSet low high 1 = f.rangeSet low high 0 := by
  refine rangeSet_congr (fun v => ?_) (fun fault => ⟨fun wrong => ?_, fun wrong => ?_⟩)
  · unfold Stride.Holds
    simp only [Int.natCast_zero, Int.zero_dvd, Int.natCast_one, Int.one_dvd, and_true]
    omega
  all_goals
    cases wrong with
    | lowBelow below => exact .lowBelow below
    | lowAbove above => exact .lowAbove above
    | highBelow inside below => exact .highBelow inside below
    | highAbove inside above => exact .highAbove inside above
    | inverted greatest least inverted => exact .inverted greatest least inverted
    | leaves _ _ order _ => exact absurd order (Int.not_lt.2 h)

namespace Expression

/-! ## Clauses of items -/

namespace Item

/-- The clause of an item. Only a lone wildcard for days or weekdays asks for nothing. -/
def clause (item : Item) : Clause :=
  let f := item.target
  match item.extent, item.step with
  | .any, none => if f = .day ∨ f = .weekday then .values f [] else .range f f.least (-1) 1
  | .any, some step => .range f f.least (-1) step
  | .one v, none => .values f [v]
  | .one v, some step => .range f v (-1) step
  | .between low high, none => .range f low high 1
  | .between low high, some step => .range f low high step

theorem field_clause (item : Item) : item.clause.field = item.target := by
  obtain ⟨f, extent, step⟩ := item
  cases extent with
  | any =>
    cases step with
    | none =>
      simp only [clause]
      split <;> rfl
    | some step => rfl
  | one v => cases step <;> rfl
  | between low high => cases step <;> rfl

theorem set_range {f : Field} {low high : Int} {step : Nat} (positive : 0 < step) :
    (Clause.range f low high step).set =
      f.rangeSet low (if high < 0 then f.greatest else high) step := by
  have rises : ¬(step : Int) ≤ 0 := by omega
  simp only [Clause.set, Clause.bounds, if_neg rises]
  split <;> rfl

/-- An item and its clause ask for the same set, or have the same fault. -/
theorem set_clause {item : Item} (h : ∀ step ∈ item.step, 0 < step) :
    item.clause.set = item.set := by
  obtain ⟨f, extent, step⟩ := item
  have top : ((-1 : Int) < 0) := by decide
  cases extent with
  | any =>
    cases step with
    | none =>
      have whole : f.rangeSet f.least f.greatest 1 = .ok f.allValues :=
        Field.rangeSet_eq_ok (Nat.le_refl _) f.least_le_greatest (Nat.le_refl _)
          (.inl (by cases f <;> decide))
      simp only [clause, set]
      split
      · rfl
      · rw [← whole]
        exact (set_range Nat.one_pos).trans (by rw [if_pos top])
    | some step => exact (set_range (h step rfl)).trans (by rw [if_pos top]; rfl)
  | one v =>
    cases step with
    | none =>
      show ([v].foldlM (fun (set : BitSet 64) (v : Nat) => (f.rangeSet v v 0).map (set ||| ·)) 0) =
        f.rangeSet v v 0
      rw [List.foldlM_cons]
      cases f.rangeSet v v 0 with
      | error fault => rfl
      | ok set => exact congrArg Except.ok (BitSet.zero_or set)
    | some step => exact (set_range (h step rfl)).trans (by rw [if_pos top]; rfl)
  | between low high =>
    have natural : ¬(high : Int) < 0 := by omega
    cases step with
    | none =>
      simp only [set]
      refine (set_range Nat.one_pos).trans ?_
      rw [if_neg natural]
      split
      · rfl
      · rename_i falls
        exact Field.rangeSet_one (by omega)
    | some step => exact (set_range (h step rfl)).trans (by rw [if_neg natural]; rfl)

end Item

/-! ## Agreement -/

/-- What is made from an expression and what is made from clauses: the same, or nothing in either
way, since the same field has the same fault. -/
inductive Agree {α : Type} : Except Error α → Except ClauseError α → Prop
  | ok (a : α) : Agree (.ok a) (.ok a)
  | error {e : Error} {e' : ClauseError} (position : Nat)
      (same : e.cause = .badItem e'.field position e'.fault) : Agree (.error e) (.error e')

namespace Agree

variable {α β γ δ : Type} {step : α → β → Except Error α} {step' : α → γ → Except ClauseError α}

theorem map {x : Except Error α} {y : Except ClauseError α} (h : Agree x y) (f : α → β) :
    Agree (x.map f) (y.map f) := by
  cases h with
  | ok a => exact .ok (f a)
  | error position same => exact .error position same

/-- Going through two lists agrees where each two members that are written alike do. -/
theorem foldlM {write : β → δ} {write' : γ → δ} {l : List β} {l' : List γ}
    (h : ∀ a b, ∀ c ∈ l', write b = write' c → Agree (step a b) (step' a c))
    (alike : l.map write = l'.map write') (a : α) : Agree (l.foldlM step a) (l'.foldlM step' a) := by
  induction l' generalizing l a with
  | nil =>
    obtain rfl := List.map_eq_nil_iff.1 alike
    exact .ok a
  | cons c l' ih =>
    obtain ⟨b, l, rfl, first, rest⟩ := List.map_eq_cons_iff.1 alike
    have here := h a b c List.mem_cons_self first
    rw [List.foldlM_cons, List.foldlM_cons]
    generalize step a b = x at here
    generalize step' a c = y at here
    cases here with
    | ok a' => exact ih (fun a b c member => h a b c (List.mem_cons_of_mem _ member)) rest a'
    | error position same => exact .error position same

end Agree

/-- An item that is written and its clause add the same, or are refused for the same fault. -/
theorem agree_addItem {input : String} {item : Item} (h : item.IsReadable) (s : Selection)
    {token : Token × Nat} (written : token.1.text = item.write) :
    Agree (addItem input item.target.column s token) (s.add item.clause) := by
  have same := Item.set_clause fun step given => (h.step step given).1
  rw [addItem, written, itemSet_write h, Selection.add, same, item.field_clause]
  cases item.set with
  | ok set => exact .ok _
  | error fault => exact .error token.2 rfl

/-! ## Columns -/

/-- A column of an expression, item by item. -/
structure Column where
  field : Field
  items : List Item
deriving DecidableEq, Repr

namespace Column

/-- Writes a column: its items, with commas between them. -/
def write (c : Column) : List Char :=
  List.intercalate [','] (c.items.map Item.write)

def clauses (c : Column) : List Clause :=
  c.items.map Item.clause

/-- A column that can be read: it is not empty, its items stand in their place, and each of them can
be read. -/
structure IsReadable (c : Column) : Prop where
  ne_nil : c.items ≠ []
  place : ∀ item ∈ c.items, item.target.column = c.field
  items : ∀ item ∈ c.items, item.IsReadable

instance (c : Column) : Decidable c.IsReadable :=
  decidable_of_iff
    (c.items ≠ [] ∧ (∀ item ∈ c.items, item.target.column = c.field) ∧
      ∀ item ∈ c.items, item.IsReadable)
    ⟨fun h => ⟨h.1, h.2.1, h.2.2⟩, fun h => ⟨h.ne_nil, h.place, h.items⟩⟩

/-- What was written is one word, and not the name of a preset. -/
theorem solid_write {c : Column} (h : c.IsReadable) :
    c.write ≠ [] ∧ ∀ a ∈ c.write, isBlank a = false ∧ a ≠ '@' := by
  constructor
  · obtain ⟨item, items, list⟩ := List.exists_cons_of_ne_nil h.ne_nil
    rw [write, list, List.map_cons]
    exact intercalate_ne_nil item.write_ne_nil
  · intro a member
    rcases mem_intercalate member with comma | ⟨text, inside, member⟩
    · cases List.mem_singleton.1 comma
      decide
    · obtain ⟨item, _, rfl⟩ := List.mem_map.1 inside
      obtain ⟨blank, _, preset⟩ := Item.solid_of_mem_write member
      exact ⟨blank, preset⟩

end Column

theorem agree_addColumn {input : String} {c : Column} (h : c.IsReadable) (s : Selection)
    {column : Field × Token} (written : (column.1, column.2.text) = (c.field, c.write)) :
    Agree (addColumn input s column) (c.clauses.foldlM Selection.add s) := by
  obtain ⟨field, text⟩ := Prod.mk.inj written
  have free : ∀ item ∈ c.items.map Item.write, ',' ∉ item := by
    intro text inside comma
    obtain ⟨item, _, rfl⟩ := List.mem_map.1 inside
    exact (Item.solid_of_mem_write comma).2.1 rfl
  have texts : (column.2.items.zipIdx 1).map (fun token => token.1.text) =
      c.items.map Item.write := by
    rw [map_text_zipIdx_items, ← Token.map_text_items,
      Token.items_intercalate (mt List.map_eq_nil_iff.1 h.ne_nil) free text]
  rw [addColumn, Column.clauses, List.foldlM_map]
  apply Agree.foldlM _ texts
  intro s token item member same
  rw [field, ← h.place item member]
  exact agree_addItem (h.items item member) s same

/-! ## Expressions -/

/-- Writes an expression: its columns, with blanks between them. -/
def writeColumns (columns : List Column) : String :=
  String.ofList (List.intercalate [' '] (columns.map Column.write))

/-- **An expression and the clauses of its items agree.** Where the options allow the columns, what
is written item by item is read as the rule that the clauses of the items make, in the same order;
and if the clauses make none, the expression is refused for the same fault in the same field. -/
theorem agree_read_ofClauses (o : Options) (columns : List Column)
    (accepted : o.layout? columns.length = some (columns.map Column.field))
    (readable : ∀ c ∈ columns, c.IsReadable) :
    Agree (read o (writeColumns columns)) (Rule.ofClauses (columns.flatMap Column.clauses)) := by
  have solid : ∀ text ∈ columns.map Column.write,
      text ≠ [] ∧ ∀ a ∈ text, isBlank a = false ∧ a ≠ '@' := by
    intro text member
    obtain ⟨c, inside, rfl⟩ := List.mem_map.1 member
    exact Column.solid_write (readable c inside)
  obtain ⟨tokens, texts, row⟩ := read_intercalate (o := o) solid
  have count : tokens.length = columns.length := by
    rw [← List.length_map Token.text, texts, List.length_map]
  have alike : ((columns.map Column.field).zip tokens).map (fun c => (c.1, c.2.text)) =
      columns.map fun c => (c.field, c.write) := by
    have pairs := List.zip_map' (f := Column.field) (g := Column.write) (l := columns)
    rw [← texts, List.zip_map_right] at pairs
    exact pairs
  rw [writeColumns, row, readColumns, count, accepted, Rule.ofClauses, foldlM_flatMap]
  apply Agree.map
  apply Agree.foldlM _ alike
  intro s column c member same
  exact agree_addColumn (readable c member) s same

/-- Every twenty minutes from nine to five and in the last hour, on the fifteenth and on every other
day of the last week of some months, if it is a Friday. -/
def Column.fridays : List Column :=
  [⟨.minute, [⟨.minute, .one 0, some 20⟩]⟩,
    ⟨.hour, [⟨.hour, .between 9 17, none⟩, ⟨.hour, .one 23, none⟩]⟩,
    ⟨.day, [⟨.lastDay, .between 1 7, some 2⟩, ⟨.day, .one 15, none⟩]⟩,
    ⟨.month, [⟨.month, .one 3, some 4⟩]⟩,
    ⟨.weekday, [⟨.strictWeekday, .one 5, none⟩]⟩]

/-- Hours that begin past the end of the day, behind which there is a day before the first one. -/
def Column.lateHours : List Column :=
  [⟨.second, [⟨.second, .one 30, none⟩]⟩, ⟨.minute, [⟨.minute, .one 0, none⟩]⟩,
    ⟨.hour, [⟨.hour, .one 9, none⟩, ⟨.hour, .between 25 3, none⟩]⟩,
    ⟨.day, [⟨.day, .one 0, none⟩]⟩, ⟨.month, [⟨.month, .any, none⟩]⟩,
    ⟨.weekday, [⟨.weekday, .any, none⟩]⟩]

theorem agree_read_fridays :
    Agree (read {} "0/20 9-17,23 ^1-7/2,15 3/4 &5")
        (Rule.ofClauses [.range .minute 0 (-1) 20, .range .hour 9 17 1, .values .hour [23],
          .range .lastDay 1 7 2, .values .day [15], .range .month 3 (-1) 4,
          .values .strictWeekday [5]]) ∧
      Agree (read {} "30 0 9,25-3 0 * *")
        (Rule.ofClauses [.values .second [30], .values .minute [0], .values .hour [9],
          .range .hour 25 3 1, .values .day [0], .range .month 1 (-1) 1, .values .weekday []]) :=
  ⟨agree_read_ofClauses {} Column.fridays rfl (by decide),
    agree_read_ofClauses {} Column.lateHours rfl (by decide)⟩

end Expression

end Recurrence
