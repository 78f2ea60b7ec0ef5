import Recurrence.Proofs.Expression.Item
import Recurrence.Proofs.Expression.Reading

/-!
# Written columns

A column lists runs of values, and each run is read back as the places of its values
(`Run.itemSet_write`). Reading a column adds to a selection what its text describes
(`Expression.Describes`): a list of runs describes the sets that it was written for
(`Expression.describes_list`), a wildcard every value or no choice at all
(`Expression.describes_wildcard`).
-/

namespace Recurrence

/-! ## Runs -/

namespace Run

open Expression (Item itemSet)

variable {f : Field} {first last : Nat}

/-- A run of values as an item of a field. -/
def item (f : Field) (r : Run) : Item :=
  ⟨f, if r.first = r.last then .one r.first else .between r.first r.last, none⟩

/-- The places of a run of values in the bit set of a field. -/
def places (f : Field) (r : Run) : BitSet 64 :=
  f.encode r.first r.last (if r.first < r.last then 1 else 0)

theorem write_signs (f : Field) (r : Run) : r.write f.signs = (r.item f).write := by
  unfold write item
  split <;> simp [Item.write, Expression.Extent.write, Expression.writeStep]

theorem getLsbD_places {i : Nat} (hlow : f.least ≤ first) (proper : first ≤ last)
    (hhigh : last ≤ f.greatest) :
    (places f ⟨first, last⟩).getLsbD i = true ↔ ∃ v, first ≤ v ∧ v ≤ last ∧ f.slot v = i := by
  rw [places, Field.getLsbD_encode hlow proper hhigh]
  constructor
  · rintro ⟨v, hv, hv', _, same⟩
    exact ⟨v, hv, hv', same⟩
  · rintro ⟨v, hv, hv', same⟩
    refine ⟨v, hv, hv', ?_, same⟩
    split
    · exact Nat.one_dvd _
    · rw [Nat.zero_dvd]
      simp only at *
      omega

theorem isReadable_item (proper : first ≤ last) (hhigh : last ≤ f.greatest) :
    (item f ⟨first, last⟩).IsReadable := by
  have small : f.greatest ≤ Field.largestLiteral := by cases f <;> decide
  unfold item
  split
  · exact ⟨Nat.le_trans proper (Nat.le_trans hhigh small), nofun, nofun⟩
  · exact ⟨⟨Nat.le_trans proper (Nat.le_trans hhigh small), Nat.le_trans hhigh small⟩, nofun, nofun⟩

theorem set_item (hlow : f.least ≤ first) (proper : first ≤ last) (hhigh : last ≤ f.greatest) :
    (item f ⟨first, last⟩).set = .ok (places f ⟨first, last⟩) := by
  unfold item places Item.set
  by_cases single : first = last
  · subst single
    simp only [if_true, Nat.lt_irrefl, if_false]
    exact Field.rangeSet_eq_ok hlow proper hhigh (.inr rfl)
  · have inner : first < last := by omega
    simp only [single, inner, if_true, if_false]
    exact Field.rangeSet_eq_ok hlow proper hhigh (.inl (by omega))

/-- A run is read back as its places. -/
theorem itemSet_write (hlow : f.least ≤ first) (proper : first ≤ last)
    (hhigh : last ≤ f.greatest) :
    itemSet f.column (write f.signs ⟨first, last⟩) = .ok (f, places f ⟨first, last⟩) := by
  have read := Expression.itemSet_write (isReadable_item (f := f) proper hhigh)
  rw [set_item hlow proper hhigh] at read
  rw [write_signs]
  exact read

end Run

/-! ## Lists of runs -/

namespace Field

variable {f : Field} {set : BitSet 64} (bounded : ∀ i, set.getLsbD i = true → i < f.places)
include bounded

theorem bounds_of_mem_runs {r : Run} (h : r ∈ Run.group (f.decode set)) :
    f.least ≤ r.first ∧ r.first ≤ r.last ∧ r.last ≤ f.greatest := by
  have proper : r.first ≤ r.last := Run.isProper_group _ r h
  have first : r.first ∈ f.decode set :=
    Run.exists_mem_group.2 ⟨r, h, Nat.le_refl _, proper⟩
  have last : r.last ∈ f.decode set :=
    Run.exists_mem_group.2 ⟨r, h, proper, Nat.le_refl _⟩
  exact ⟨((mem_decode bounded).1 first).1, proper, ((mem_decode bounded).1 last).2.1⟩

/-- The runs of a set cover its places and no others. -/
theorem exists_run_iff {i : Nat} :
    (∃ r ∈ Run.group (f.decode set), (r.places f).getLsbD i = true) ↔ set.getLsbD i = true := by
  constructor
  · rintro ⟨r, hr, member⟩
    obtain ⟨hlow, proper, hhigh⟩ := bounds_of_mem_runs bounded hr
    obtain ⟨v, hv, hv', rfl⟩ := (Run.getLsbD_places hlow proper hhigh).1 member
    exact ((mem_decode bounded).1 (Run.exists_mem_group.2 ⟨r, hr, hv, hv'⟩)).2.2
  · intro member
    obtain ⟨v, hlow, hhigh, rfl⟩ := exists_slot (bounded i member)
    obtain ⟨r, hr, hv, hv'⟩ := Run.exists_mem_group.1 ((mem_decode bounded).2 ⟨hlow, hhigh, member⟩)
    obtain ⟨hlow, proper, hhigh⟩ := bounds_of_mem_runs bounded hr
    exact ⟨r, hr, (Run.getLsbD_places hlow proper hhigh).2 ⟨v, hv, hv', rfl⟩⟩

end Field

/-! ## Columns -/

/-- Adds what another selection holds for the fields of a column. -/
def Selection.join (s : Selection) (column : Field) (other : Selection) : Selection :=
  fun g => if g.column = column then s g ||| other g else s g

theorem Selection.getLsbD_join {s other : Selection} {column f : Field} {i : Nat} :
    (s.join column other f).getLsbD i = true ↔
      (s f).getLsbD i = true ∨ f.column = column ∧ (other f).getLsbD i = true := by
  unfold join
  split
  · rename_i same
    simp only [BitVec.getLsbD_or, Bool.or_eq_true, same, true_and]
  · rename_i other
    simp only [other, false_and, or_false]

namespace Expression

/-- A text that, as a column, is read as what a selection holds for the fields of that column, and
that stays one column between others. -/
structure Describes (text : List Char) (column : Field) (meaning : Selection) : Prop where
  ne_nil : text ≠ []
  solid : ∀ c ∈ text, isBlank c = false ∧ c ≠ '@'
  read : ∀ input s t, t.text = text → addColumn input s (column, t) = .ok (s.join column meaning)

theorem foldlM_addItem {input : String} {column : Field} {tokens : List Token}
    {choices : List (Field × BitSet 64)} (s : Selection) (position : Nat)
    (h : tokens.map (fun t => itemSet column t.text) = choices.map .ok) :
    (tokens.zipIdx position).foldlM (addItem input column) s = .ok (s.gather choices) := by
  induction tokens generalizing choices s position with
  | nil =>
    rw [List.map_nil, List.nil_eq, List.map_eq_nil_iff] at h
    subst h
    rfl
  | cons t tokens ih =>
    match choices with
    | choice :: choices =>
      rw [List.map_cons, List.map_cons, List.cons_eq_cons] at h
      have first : addItem input column s (t, position) = .ok (s.insert choice.1 choice.2) := by
        simp only [addItem, h.1]
      rw [List.zipIdx_cons, List.foldlM_cons, first]
      exact ih _ _ h.2

/-- The items of a column, read one by one, make up its meaning. -/
theorem describes_of_choices {column : Field} {meaning : Selection} {items : List (List Char)}
    {choices : List (Field × BitSet 64)} (ne : items ≠ [])
    (written : ∀ item ∈ items, ∃ i : Item, i.write = item)
    (h : items.map (itemSet column) = choices.map .ok)
    (same : ∀ f i, (∃ choice ∈ choices, choice.1 = f ∧ choice.2.getLsbD i = true ∧ i < f.places) ↔
      f.column = column ∧ (meaning f).getLsbD i = true) :
    Describes (List.intercalate [','] items) column meaning where
  ne_nil := by
    match items with
    | item :: items =>
      obtain ⟨i, rfl⟩ := written item List.mem_cons_self
      exact intercalate_ne_nil i.write_ne_nil
  solid c member := by
    rcases mem_intercalate member with comma | ⟨item, hitem, inside⟩
    · cases List.mem_singleton.1 comma
      decide
    · obtain ⟨i, rfl⟩ := written item hitem
      obtain ⟨blank, _, preset⟩ := Item.solid_of_mem_write inside
      exact ⟨blank, preset⟩
  read input s t text := by
    have free : ∀ item ∈ items, ',' ∉ item := by
      intro item hitem inside
      obtain ⟨i, rfl⟩ := written item hitem
      exact (Item.solid_of_mem_write inside).2.1 rfl
    have read : t.items.map (fun t => itemSet column t.text) = choices.map .ok := by
      rw [← h, ← Token.items_intercalate ne free text, List.map_map]
      rfl
    rw [addColumn, foldlM_addItem s 1 read]
    refine congrArg _ (Selection.ext_getLsbD fun f i => ?_)
    rw [Selection.getLsbD_gather, Selection.getLsbD_join, same]

/-! ## Lists and wildcards -/

/-- The runs of every field of a column. -/
def runs (column : Field) (meaning : Selection) : List (Field × Run) :=
  column.counted.flatMap fun f => (Run.group (f.decode (meaning f))).map fun r => (f, r)

theorem mem_runs {column f : Field} {meaning : Selection} {r : Run} :
    (f, r) ∈ runs column meaning ↔ f.column = column ∧ r ∈ Run.group (f.decode (meaning f)) := by
  simp [runs, Field.mem_counted]

/-- The items of a column for the sets of a selection. -/
def writeRuns (column : Field) (meaning : Selection) : List (List Char) :=
  (runs column meaning).map fun (f, r) => r.write f.signs

/-- A list of runs is read as the sets that it was written for. -/
theorem describes_list {column : Field} {meaning : Selection} (bounded : meaning.IsBounded)
    (some : ∃ f, f.column = column ∧ meaning f ≠ 0) :
    Describes (List.intercalate [','] (writeRuns column meaning)) column meaning := by
  have read : (writeRuns column meaning).map (itemSet column) =
      ((runs column meaning).map fun (f, r) => (f, r.places f)).map .ok := by
    rw [writeRuns, List.map_map, List.map_map]
    apply List.map_congr_left
    rintro ⟨f, r⟩ member
    obtain ⟨rfl, hr⟩ := mem_runs.1 member
    obtain ⟨hlow, proper, hhigh⟩ := Field.bounds_of_mem_runs (bounded f) hr
    exact Run.itemSet_write hlow proper hhigh
  refine describes_of_choices ?_ ?_ read fun f i => ?_
  · obtain ⟨f, rfl, ne⟩ := some
    obtain ⟨i, member⟩ := BitSet.ne_zero_iff.1 ne
    obtain ⟨r, hr, _⟩ := (Field.exists_run_iff (bounded f)).2 member
    exact List.ne_nil_of_mem (List.mem_map_of_mem (mem_runs.2 ⟨rfl, hr⟩))
  · intro item member
    obtain ⟨⟨f, r⟩, _, rfl⟩ := List.mem_map.1 member
    exact ⟨r.item f, (Run.write_signs f r).symm⟩
  · constructor
    · rintro ⟨choice, member, rfl, inside, _⟩
      obtain ⟨⟨f, r⟩, hr, rfl⟩ := List.mem_map.1 member
      obtain ⟨column, hr⟩ := mem_runs.1 hr
      exact ⟨column, (Field.exists_run_iff (bounded f)).1 ⟨r, hr, inside⟩⟩
    · rintro ⟨column, member⟩
      obtain ⟨r, hr, inside⟩ := (Field.exists_run_iff (bounded f)).2 member
      exact ⟨(f, r.places f), List.mem_map_of_mem (mem_runs.2 ⟨column, hr⟩), rfl, inside,
        bounded f i member⟩

theorem itemSet_wildcard (column : Field) :
    itemSet column ['*'] =
      .ok (column, if column = .day ∨ column = .weekday then 0 else column.allValues) :=
  rfl

/-- A wildcard is read as every value of the column, save where it leaves the choice of days to
others. -/
theorem describes_wildcard {column : Field} {meaning : Selection}
    (unmarked : column.column = column)
    (own : meaning column = if column = .day ∨ column = .weekday then 0 else column.allValues)
    (others : ∀ f, f.column = column → f ≠ column → meaning f = 0) :
    Describes ['*'] column meaning := by
  have bounded : ∀ i, (meaning column).getLsbD i = true → i < column.places := by
    intro i member
    rw [own] at member
    split at member
    · rw [BitSet.getLsbD_zero] at member
      cases member
    · exact Field.getLsbD_allValues.1 member
  have alone : List.intercalate [','] [['*']] = ['*'] := List.intercalate_singleton
  have read : [['*']].map (itemSet column) = [(column, meaning column)].map .ok := by
    rw [List.map_singleton, itemSet_wildcard, own]
    rfl
  rw [← alone]
  refine describes_of_choices (List.cons_ne_nil _ _) ?_ read fun f i => ?_
  · intro item member
    cases List.mem_singleton.1 member
    exact ⟨⟨.minute, .any, none⟩, rfl⟩
  simp only [List.mem_singleton, exists_eq_left]
  constructor
  · rintro ⟨rfl, member, _⟩
    exact ⟨unmarked, member⟩
  · rintro ⟨same, member⟩
    by_cases main : f = column
    · subst main
      exact ⟨rfl, member, bounded i member⟩
    · rw [others f same main, BitSet.getLsbD_zero] at member
      cases member

/-! ## Rows -/

theorem foldlM_addColumn {input : String} {meaning : Selection} {fields : List Field}
    {tokens : List Token} {texts : Field → List Char} (s : Selection)
    (h : tokens.map Token.text = fields.map texts)
    (described : ∀ f ∈ fields, Describes (texts f) f meaning) :
    (fields.zip tokens).foldlM (addColumn input) s =
      .ok (fields.foldl (fun s f => s.join f meaning) s) := by
  induction fields generalizing s tokens with
  | nil => rfl
  | cons f fields ih =>
    match tokens with
    | t :: tokens =>
      rw [List.map_cons, List.map_cons, List.cons_eq_cons] at h
      have first := (described f List.mem_cons_self).read input s t h.1
      rw [List.zip_cons_cons, List.foldlM_cons, first]
      exact ih _ h.2 fun g member => described g (List.mem_cons_of_mem f member)

theorem getLsbD_foldl_join {meaning : Selection} {fields : List Field} (s : Selection) {f : Field}
    {i : Nat} :
    (fields.foldl (fun s f => s.join f meaning) s f).getLsbD i = true ↔
      (s f).getLsbD i = true ∨ f.column ∈ fields ∧ (meaning f).getLsbD i = true := by
  induction fields generalizing s with
  | nil => simp
  | cons column fields ih =>
    rw [List.foldl_cons, ih, Selection.getLsbD_join, List.mem_cons, or_assoc, or_and_right]

/-- Columns with blanks between them are the columns of their text. -/
theorem columnTexts_intercalate {texts : List (List Char)}
    (h : ∀ text ∈ texts, text ≠ [] ∧ ∀ c ∈ text, isBlank c = false ∧ c ≠ '@') :
    columnTexts (String.ofList (List.intercalate [' '] texts)) = texts := by
  rw [columnTexts_eq, String.toList_ofList]
  apply words_intercalate
  intro text member
  obtain ⟨ne, solid⟩ := h text member
  exact ⟨ne, fun c inside => (solid c inside).1⟩

/-- Columns with blanks between them are read as a row, if none of them looks like a preset. -/
theorem read_intercalate {o : Options} {texts : List (List Char)}
    (h : ∀ text ∈ texts, text ≠ [] ∧ ∀ c ∈ text, isBlank c = false ∧ c ≠ '@') :
    ∃ columns : List Token, columns.map Token.text = texts ∧
      read o (String.ofList (List.intercalate [' '] texts)) =
        readColumns o (String.ofList (List.intercalate [' '] texts)) columns := by
  have same := columnTexts_intercalate h
  refine ⟨_, (columnTexts_eq _).symm.trans same, read_eq_readColumns ?_⟩
  intro text first preset
  rw [same] at first
  exact ((h text (List.mem_of_head? first)).2 '@' (List.mem_of_head? preset)).2 rfl

/-- A row of columns is read as what they describe together. -/
theorem readColumns_eq {o : Options} {input : String} {meaning : Selection} {fields : List Field}
    {tokens : List Token} {texts : Field → List Char}
    (accepted : o.layout? fields.length = some fields)
    (h : tokens.map Token.text = fields.map texts)
    (described : ∀ f ∈ fields, Describes (texts f) f meaning)
    (whole : ∀ f, f.column ∉ fields → meaning f = 0) :
    readColumns o input tokens = .ok meaning.toRule := by
  have count : tokens.length = fields.length := by
    rw [← List.length_map Token.text, h, List.length_map]
  have gathered : fields.foldl (fun s f => s.join f meaning) Selection.empty = meaning := by
    apply Selection.ext_getLsbD
    intro f i
    rw [getLsbD_foldl_join, Selection.empty, BitSet.getLsbD_zero]
    by_cases shown : f.column ∈ fields
    · simp [shown]
    · simp [shown, whole f shown]
  rw [readColumns, count, accepted]
  simp only [foldlM_addColumn Selection.empty h described, gathered]
  rfl

end Expression

end Recurrence
