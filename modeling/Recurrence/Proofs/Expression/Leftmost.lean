import Recurrence.Proofs.Expression.Position
import Recurrence.Proofs.Expression.Reading

/-!
# The leftmost bad item is blamed

What an item is refused for depends on its text and its column alone (`itemSet`), and going through
items and columns stops at the first item that is refused (`addColumn_eq_error_iff`,
`readColumns_eq_error_iff`). In the list of its column that item is told by its number, and in the
input by its place, which selects its characters and no others. So the error of a row of columns is
about the leftmost item that is not one of its column (`read_eq_error_leftmost`).
-/

namespace Recurrence.Expression

/-! ## One item -/

theorem exists_itemSet_eq_ok_iff {column : Field} {text : List Char} :
    (∃ found, itemSet column text = .ok found) ↔ IsItem column text := by
  constructor
  · intro h
    obtain ⟨⟨f, set⟩, found⟩ := h
    obtain ⟨item, spelled, _, made⟩ := itemSet_eq_ok_iff.1 found
    exact ⟨item, spelled, Item.exists_set_iff.1 ⟨set, made⟩⟩
  · intro h
    obtain ⟨item, spelled, within⟩ := h
    obtain ⟨set, made⟩ := Item.exists_set_iff.2 within
    exact ⟨(item.target, set), itemSet_eq_ok_iff.2 ⟨item, spelled, rfl, made⟩⟩

theorem not_isItem_of_itemSet {column blamed : Field} {text : List Char} {fault : Fault}
    (h : itemSet column text = .error (blamed, fault)) : ¬IsItem column text := by
  intro good
  obtain ⟨found, read⟩ := exists_itemSet_eq_ok_iff.2 good
  rw [h] at read
  cases read

/-- The error for an item at a position of its column. -/
def ItemFault (input : String) (column : Field) (item : Token × Nat) (e : Error) : Prop :=
  ∃ blamed fault, itemSet column item.1.text = .error (blamed, fault) ∧
    e = ⟨.badItem blamed item.2 fault, item.1.span, input⟩

theorem addItem_eq_error_iff {input : String} {column : Field} {s : Selection} {item : Token × Nat}
    {e : Error} : addItem input column s item = .error e ↔ ItemFault input column item e := by
  unfold addItem ItemFault
  cases itemSet column item.1.text with
  | ok found => exact ⟨nofun, nofun⟩
  | error found =>
    obtain ⟨blamed, fault⟩ := found
    simp only [Except.error.injEq, Prod.mk.injEq]
    constructor
    · intro same
      exact ⟨blamed, fault, ⟨rfl, rfl⟩, same.symm⟩
    · intro h
      obtain ⟨_, _, ⟨rfl, rfl⟩, same⟩ := h
      exact same.symm

/-! ## Columns -/

/-- The error for the first bad item of a column. -/
def ColumnFault (input : String) (c : Field × Token) (e : Error) : Prop :=
  ∃ earlier item later, c.2.items = earlier ++ item :: later ∧
    (∀ t ∈ earlier, IsItem c.1 t.text) ∧ ItemFault input c.1 (item, earlier.length + 1) e

theorem addColumn_eq_error_iff {input : String} {s : Selection} {c : Field × Token} {e : Error} :
    addColumn input s c = .error e ↔ ColumnFault input c e := by
  rw [addColumn, (gathers_addItem input c.1).foldlM_eq_error_iff addItem_eq_error_iff, ColumnFault]
  constructor
  · intro h
    obtain ⟨before, a, after, split, good, failed⟩ := h
    obtain ⟨earlier, rest, items, rfl, behind⟩ := List.zipIdx_eq_append_iff.1 split
    obtain ⟨item, later, rfl, rfl, _⟩ := List.zipIdx_eq_cons_iff.1 behind.symm
    refine ⟨earlier, item, later, items, ?_, ?_⟩
    · rw [← List.zipIdx_map_fst 1 earlier]
      exact List.forall_mem_map.2 good
    · rwa [Nat.add_comm]
  · intro h
    obtain ⟨earlier, item, later, items, good, failed⟩ := h
    refine ⟨earlier.zipIdx 1, (item, earlier.length + 1), later.zipIdx (earlier.length + 2), ?_, ?_,
      failed⟩
    · rw [items, List.zipIdx_append, List.zipIdx_cons, Nat.add_comm 1]
    · rw [← List.zipIdx_map_fst 1 earlier] at good
      have each := List.forall_mem_map.1 good
      exact each

/-! ## Rows -/

theorem readColumns_eq_error_iff {o : Options} {input : String} {columns : List Token}
    {fields : List Field} {e : Error} (layout : o.layout? columns.length = some fields) :
    readColumns o input columns = .error e ↔
      ∃ before c after, fields.zip columns = before ++ c :: after ∧
        (∀ b ∈ before, IsColumn b.1 b.2.text) ∧ ColumnFault input c e := by
  simp only [readColumns, layout]
  rw [Except.map_eq_error_iff,
    (gathers_addColumn input).foldlM_eq_error_iff addColumn_eq_error_iff]

/-- An item in a row of columns, with the columns and the items of its own column that stand before
and behind it. -/
structure ItemAt where
  before : List (Field × Token)
  column : Field
  word : Token
  after : List (Field × Token)
  earlier : List Token
  item : Token
  later : List Token
  items_eq : word.items = earlier ++ item :: later

namespace ItemAt

/-- The row of columns that an item stands in. -/
def row (p : ItemAt) : List (Field × Token) := p.before ++ (p.column, p.word) :: p.after

/-- An item is the first of its row that is not an item of its column. -/
structure IsLeftmostBad (p : ItemAt) : Prop where
  columns : ∀ c ∈ p.before, IsColumn c.1 c.2.text
  items : ∀ t ∈ p.earlier, IsItem p.column t.text
  bad : ¬IsItem p.column p.item.text

variable {p : ItemAt} {fields : List Field} {columns others : List Token}

theorem item_mem (p : ItemAt) : p.item ∈ p.word.items := by
  simp [p.items_eq]

theorem getElem?_items (p : ItemAt) :
    (p.word.text.splitOn ',')[p.earlier.length]? = some p.item.text := by
  rw [← Token.map_text_items, p.items_eq, List.map_append, List.map_cons,
    List.getElem?_append_right (by simp), List.length_map, Nat.sub_self]
  rfl

theorem getElem?_columns (h : fields.zip columns = p.row) :
    fields[p.before.length]? = some p.column ∧ columns[p.before.length]? = some p.word := by
  have here : (fields.zip columns)[p.before.length]? = some (p.column, p.word) := by
    rw [h, row, List.getElem?_append_right (Nat.le_refl _), Nat.sub_self]
    rfl
  exact List.getElem?_zip_eq_some.1 here

/-- Alone in its column an item is refused as it is in the row. -/
theorem columnFault_alone {blamed : Field} {fault : Fault} {t : Token}
    (refused : itemSet p.column p.item.text = .error (blamed, fault)) (input : String)
    (same : t.text = p.item.text) :
    ColumnFault input (p.column, t) ⟨.badItem blamed 1 fault, t.span, input⟩ := by
  have free : ',' ∉ t.text := by
    rw [same]
    exact Token.comma_not_mem_of_mem_items p.item_mem
  rw [← same] at refused
  refine ⟨[], t, [], Token.items_of_comma_not_mem free, ?_, blamed, fault, refused, rfl⟩
  intro t member
  cases member

/-- A row of other words, with the item in place of its word: the columns before it are the same. -/
theorem exists_split (h : fields.zip columns = p.row)
    (replaced : others.map Token.text =
      (columns.map Token.text).set p.before.length p.item.text) :
    ∃ before word after, fields.zip others = before ++ (p.column, word) :: after ∧
      word ∈ others ∧ word.text = p.item.text ∧
      before.map (Prod.map id Token.text) = p.before.map (Prod.map id Token.text) := by
  obtain ⟨field, column⟩ := getElem?_columns h
  have text : (others.map Token.text)[p.before.length]? = some p.item.text := by
    rw [replaced, List.getElem?_set_self]
    rw [List.length_map]
    exact (List.getElem?_eq_some_iff.1 column).1
  rw [List.getElem?_map, Option.map_eq_some_iff] at text
  obtain ⟨word, place, text⟩ := text
  have here : (fields.zip others)[p.before.length]? = some (p.column, word) :=
    List.getElem?_zip_eq_some.2 ⟨field, place⟩
  obtain ⟨inside, here⟩ := List.getElem?_eq_some_iff.1 here
  refine ⟨(fields.zip others).take p.before.length, word,
    (fields.zip others).drop (p.before.length + 1), ?_, List.mem_of_getElem? place, text, ?_⟩
  · rw [← here, ← List.drop_eq_getElem_cons inside, List.take_append_drop]
  · have start : p.before = (fields.zip columns).take p.before.length := by
      rw [h, row, List.take_left]
    conv_rhs => rw [start]
    rw [List.map_take, List.map_take, ← List.zip_map_right, ← List.zip_map_right, replaced]
    simp only [List.zip_eq_zipWith, List.take_zipWith, List.take_set_of_le, Nat.le_refl]

/-- Whatever begins before the first bad item of a row is an item of its column. -/
theorem IsLeftmostBad.isItem_of_start_lt (h : p.IsLeftmostBad)
    (ordered : (p.row.map Prod.snd).Pairwise Token.Precedes) :
    ∀ c ∈ p.row, ∀ t ∈ c.2.items, t.start < p.item.start → IsItem c.1 t.text := by
  intro c member t inside ahead
  rw [row, List.map_append, List.map_cons, List.pairwise_append, List.pairwise_cons] at ordered
  obtain ⟨_, ⟨behind, _⟩, _⟩ := ordered
  have within := Token.standsIn_of_mem_items inside
  have place := Token.standsIn_of_mem_items p.item_mem
  cases List.mem_append.1 member with
  | inl member =>
    apply h.columns c member
    rw [← Token.map_text_items]
    exact List.mem_map_of_mem inside
  | inr member =>
    cases List.mem_cons.1 member with
    | inl same =>
      rw [same, p.items_eq, List.mem_append, List.mem_cons] at inside
      have order := p.word.pairwise_items
      rw [p.items_eq, List.pairwise_append, List.pairwise_cons] at order
      obtain inside | rfl | inside := inside
      · rw [same]
        exact h.items t inside
      · exact absurd ahead (Nat.lt_irrefl _)
      · have : p.item.stop < t.start := order.2.1.1 t inside
        have := p.item.start_le_stop
        omega
    | inr member =>
      have : p.word.stop < c.2.start := behind c.2 (List.mem_map_of_mem member)
      have := place.stop_le
      have := p.item.start_le_stop
      have := within.le_start
      rw [Token.stop] at *
      omega

end ItemAt

theorem exists_leftmostBad {o : Options} {input : String} {columns : List Token}
    {fields : List Field} {e : Error} (layout : o.layout? columns.length = some fields)
    (failed : readColumns o input columns = .error e) :
    ∃ (p : ItemAt) (blamed : Field) (fault : Fault), fields.zip columns = p.row ∧
      p.IsLeftmostBad ∧ itemSet p.column p.item.text = .error (blamed, fault) ∧
      e = ⟨.badItem blamed (p.earlier.length + 1) fault, p.item.span, input⟩ := by
  obtain ⟨before, ⟨column, word⟩, after, row, good, earlier, item, later, items, well, blamed,
    fault, refused, error⟩ := (readColumns_eq_error_iff layout).1 failed
  refine ⟨⟨before, column, word, after, earlier, item, later, items⟩, blamed, fault, row, ?_,
    refused, error⟩
  exact ⟨good, well, not_isItem_of_itemSet refused⟩

/-- A row is refused for the same fault when the item that it was refused for stands alone in its
column. -/
theorem exists_readColumns_alone {p : ItemAt} {o : Options} {text : String} {fields : List Field}
    {columns others : List Token} {blamed : Field} {fault : Fault}
    (row : fields.zip columns = p.row) (leftmost : p.IsLeftmostBad)
    (refused : itemSet p.column p.item.text = .error (blamed, fault))
    (layout : o.layout? others.length = some fields)
    (replaced : others.map Token.text =
      (columns.map Token.text).set p.before.length p.item.text) :
    ∃ word ∈ others, word.text = p.item.text ∧
      readColumns o text others = .error ⟨.badItem blamed 1 fault, word.span, text⟩ := by
  obtain ⟨before, word, after, split, member, same, alike⟩ := p.exists_split row replaced
  refine ⟨word, member, same, (readColumns_eq_error_iff layout).2 ⟨before, _, after, split, ?_, ?_⟩⟩
  · have good : ∀ c ∈ p.before.map (Prod.map id Token.text), IsColumn c.1 c.2 :=
      List.forall_mem_map.2 leftmost.columns
    rw [← alike] at good
    have each := List.forall_mem_map.1 good
    exact each
  · exact p.columnFault_alone refused text same

/-- **The error of a row of columns is about its leftmost bad item.** When there are as many columns
as the options allow and the expression is refused all the same, then for an item of one column:
every item that begins before it in the input is one of its own column, and it is not. The error
tells which item of its column it is, counted from one, and where it stands in the input. In a
column by itself the item is refused for the same fault of the same field, and so is every
expression with the item alone in place of its column that does not begin like a preset. -/
theorem read_eq_error_leftmost (o : Options) (input : String) (e : Error)
    (sign : ∀ word ∈ (columnTexts input).head?, word.head? ≠ some '@')
    (count : o.fewest ≤ (columnTexts input).length ∧ (columnTexts input).length ≤ o.most)
    (failed : read o input = .error e) :
    ∃ (fields : List Field) (p : ItemAt) (blamed : Field) (fault : Fault),
      (o.layout? (columnTexts input).length = some fields ∧
        fields.zip (words input.toList) = p.row) ∧
      (p.IsLeftmostBad ∧
        ∀ c ∈ p.row, ∀ t ∈ c.2.items, t.start < p.item.start → IsItem c.1 t.text) ∧
      e = ⟨.badItem blamed (p.earlier.length + 1) fault, p.item.span, input⟩ ∧
      ((columnTexts input)[p.before.length]? = some p.word.text ∧
        p.word.span.Selects input p.word.text) ∧
      ((p.word.text.splitOn ',')[p.earlier.length]? = some p.item.text ∧
        p.item.span.Selects input p.item.text) ∧
      (∀ (input' : String) (s : Selection) (t : Token), t.text = p.item.text →
        addColumn input' s (p.column, t) = .error ⟨.badItem blamed 1 fault, t.span, input'⟩) ∧
      ∀ text : String, columnTexts text = (columnTexts input).set p.before.length p.item.text →
        (∀ word ∈ (columnTexts text).head?, word.head? ≠ some '@') →
          ∃ place : Span, place.Selects text p.item.text ∧
            read o text = .error ⟨.badItem blamed 1 fault, place, text⟩ := by
  obtain ⟨fields, layout⟩ : ∃ fields, o.layout? (columnTexts input).length = some fields :=
    ⟨_, if_pos count⟩
  have whole : (words input.toList).length = fields.length := by
    rw [← length_columnTexts, (layout?_bounds layout).2.2]
  rw [read_eq_readColumns sign] at failed
  obtain ⟨p, blamed, fault, row, leftmost, refused, error⟩ :=
    exists_leftmostBad (length_columnTexts input ▸ layout) failed
  have ordered : (p.row.map Prod.snd).Pairwise Token.Precedes := by
    rw [← row, List.map_snd_zip (Nat.le_of_eq whole)]
    exact pairwise_wordsFrom 0 input.toList
  obtain ⟨_, column⟩ := ItemAt.getElem?_columns row
  have word : p.word.StandsIn 0 input.toList :=
    standsIn_of_mem_wordsFrom 0 input.toList p.word (List.mem_of_getElem? column)
  have item := (Token.standsIn_of_mem_items p.item_mem).trans word
  refine ⟨fields, p, blamed, fault, ⟨layout, row⟩, ⟨leftmost, leftmost.isItem_of_start_lt ordered⟩,
    error, ⟨?_, word.selects⟩, ⟨p.getElem?_items, item.selects⟩, ?_, ?_⟩
  · rw [columnTexts_eq, List.getElem?_map, column]
    rfl
  · intro input' s t same
    exact addColumn_eq_error_iff.2 (p.columnFault_alone refused input' same)
  · intro text replaced sign'
    rw [read_eq_readColumns sign']
    have layout' : o.layout? (words text.toList).length = some fields := by
      rw [← length_columnTexts, replaced, List.length_set, layout]
    rw [columnTexts_eq, columnTexts_eq] at replaced
    obtain ⟨word', member, same, refused'⟩ :=
      exists_readColumns_alone row leftmost refused layout' replaced
    refine ⟨word'.span, ?_, refused'⟩
    rw [← same]
    exact (standsIn_of_mem_wordsFrom 0 text.toList word' member).selects

/-- The thirty-second day from the end of the month, before an item that is no value at all. -/
def lateDay : String := "0 9  1,^32,é * mon"

theorem read_lateDay :
    read {} lateDay = .error ⟨.badItem .lastDay 2 (.aboveMaximum 32 31), ⟨7, 10⟩, lateDay⟩ ∧
      ∃ p : ItemAt, p.IsLeftmostBad ∧ p.earlier.length + 1 = 2 ∧ p.item.span = ⟨7, 10⟩ ∧
        Span.Selects ⟨7, 10⟩ lateDay p.item.text ∧
        ∀ (s : Selection) (t : Token), t.text = p.item.text →
          addColumn lateDay s (p.column, t) =
            .error ⟨.badItem .lastDay 1 (.aboveMaximum 32 31), t.span, lateDay⟩ := by
  have failed :
      read {} lateDay = .error ⟨.badItem .lastDay 2 (.aboveMaximum 32 31), ⟨7, 10⟩, lateDay⟩ := rfl
  obtain ⟨_, p, blamed, fault, _, ⟨leftmost, _⟩, error, _, ⟨_, selects⟩, alone, _⟩ :=
    read_eq_error_leftmost {} lateDay _ (by decide) (by decide) failed
  obtain ⟨cause, place, _⟩ := Error.mk.inj error
  obtain ⟨rfl, position, rfl⟩ := Cause.badItem.inj cause
  refine ⟨failed, p, leftmost, position.symm, place.symm, ?_, alone lateDay⟩
  rw [place]
  exact selects

end Recurrence.Expression
