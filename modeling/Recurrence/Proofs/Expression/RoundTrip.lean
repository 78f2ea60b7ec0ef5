import Recurrence.Proofs.Expression.Column

/-!
# The canonical expression is read back

Each column of the canonical expression describes what the rule's selection holds for it
(`Rule.describes_column`), so the whole row is read as that selection, and the defaults give back
the rule (`Rule.read_canonical`). Rules are therefore told apart by their text.
-/

namespace Recurrence

theorem BitSet.members_setWidth {w v : Nat} (h : w ≤ v) (set : BitSet w) :
    BitSet.members (set.setWidth v) = set.members := by
  obtain ⟨k, rfl⟩ := Nat.exists_eq_add_of_le h
  rw [members, members, List.range_add, List.filter_append]
  have low : (List.range w).filter (set.setWidth (w + k)).getLsbD =
      (List.range w).filter set.getLsbD := by
    apply List.filter_congr
    intro i hi
    have := List.mem_range.1 hi
    rw [BitVec.getLsbD_setWidth, decide_eq_true (by omega), Bool.true_and]
  have high : ((List.range k).map (w + ·)).filter (set.setWidth (w + k)).getLsbD = [] := by
    rw [List.filter_eq_nil_iff]
    intro i hi
    obtain ⟨j, _, rfl⟩ := List.mem_map.1 hi
    simp [BitVec.getLsbD_setWidth]
  rw [low, high, List.append_nil]

theorem Field.decode_setWidth {w : Nat} (h : w ≤ 64) (f : Field) (set : BitSet w) :
    f.decode (set.setWidth 64) = f.decode set := by
  cases f <;> simp only [decode, BitSet.members_setWidth h]

/-! ## Columns of a rule -/

namespace Expression

theorem writeRuns_eq (column : Field) (meaning : Selection) :
    writeRuns column meaning =
      column.counted.flatMap fun f => writeItems f.signs (f.decode (meaning f)) := by
  simp only [writeRuns, runs, List.map_flatMap, List.map_map]
  rfl

theorem describes_plainColumn {f : Field} {meaning : Selection}
    (plain : f ∈ [Field.second, .minute, .hour, .month]) (bounded : meaning.IsBounded)
    (ne : meaning f ≠ 0) : Describes (Rule.plainColumn f (meaning f)) f meaning := by
  obtain ⟨notDay, notWeekday, signs, alone⟩ :
      f ≠ .day ∧ f ≠ .weekday ∧ f.signs = [] ∧ f.counted = [f] := by
    revert plain
    cases f <;> decide
  have own : f.column = f := by
    rw [← Field.mem_counted, alone]
    exact List.mem_singleton_self f
  rw [Rule.plainColumn]
  split
  · rename_i whole
    refine describes_wildcard own ?_ ?_
    · rw [whole, if_neg (by simp [notDay, notWeekday])]
    · intro g same other
      rw [← Field.mem_counted, alone, List.mem_singleton] at same
      exact absurd same other
  · have list := describes_list bounded ⟨f, own, ne⟩
    rw [writeRuns_eq, alone, List.flatMap_singleton, signs] at list
    exact list

/-- The columns that choose days: a wildcard when nothing is chosen in them. -/
theorem describes_dayLists {column marked : Field} {meaning : Selection}
    (choosing : column = .day ∨ column = .weekday) (fields : column.counted = [column, marked])
    (bounded : meaning.IsBounded) :
    Describes
      (if meaning column = 0 ∧ meaning marked = 0 then ['*']
        else
          List.intercalate [','] <|
            writeItems column.signs (column.decode (meaning column)) ++
              writeItems marked.signs (marked.decode (meaning marked)))
      column meaning := by
  have member {f : Field} : f.column = column ↔ f = column ∨ f = marked := by
    rw [← Field.mem_counted, fields]
    simp
  split
  · rename_i none
    refine describes_wildcard (member.2 (.inl rfl)) ?_ fun f same other => ?_
    · rw [none.1, if_pos choosing]
    · obtain rfl := (member.1 same).resolve_left other
      exact none.2
  · rename_i chosen
    have list : writeRuns column meaning =
        writeItems column.signs (column.decode (meaning column)) ++
          writeItems marked.signs (marked.decode (meaning marked)) := by
      rw [writeRuns_eq, fields, List.flatMap_cons, List.flatMap_singleton]
    rw [← list]
    apply describes_list bounded
    by_cases none : meaning column = 0
    · exact ⟨marked, member.2 (.inr rfl), fun none' => chosen ⟨none, none'⟩⟩
    · exact ⟨column, member.2 (.inl rfl), none⟩

end Expression

namespace Rule

open Expression (Describes describes_plainColumn describes_dayLists)

variable {r : Rule}

theorem dayColumn_eq (r : Rule) :
    r.dayColumn =
      if r.selection .day = 0 ∧ r.selection .lastDay = 0 then ['*']
      else
        List.intercalate [','] <|
          writeItems [] (Field.day.decode (r.selection .day)) ++
            writeItems [Marker.fromEnd.sign] (Field.lastDay.decode (r.selection .lastDay)) := by
  have lastDays : r.selection .lastDay = 0 ↔ r.lastDays = 0 :=
    BitSet.setWidth_eq_zero_iff (by decide)
  have last : Field.lastDay.decode (r.selection .lastDay) = Field.lastDay.decode r.lastDays :=
    Field.decode_setWidth (by decide) .lastDay r.lastDays
  simp only [dayColumn, lastDays, last]
  by_cases every : r.selectsEveryDay
  · have none : r.selection .day = 0 := if_pos every
    rw [if_pos (.inl every), if_pos ⟨none, (selectsEveryDay_iff.1 every).2.1⟩]
  · have days : r.selection .day = r.days.setWidth 64 := if_neg every
    have fits : 32 ≤ 64 := by decide
    simp only [every, days, BitSet.setWidth_eq_zero_iff fits, Field.decode_setWidth fits, false_or,
      Bool.false_eq_true]

theorem weekdayColumn_eq (r : Rule) :
    r.weekdayColumn =
      if r.selection .weekday = 0 ∧ r.selection .strictWeekday = 0 then ['*']
      else
        List.intercalate [','] <|
          writeItems [] (Field.weekday.decode (r.selection .weekday)) ++
            writeItems [Marker.narrowing.sign]
              (Field.strictWeekday.decode (r.selection .strictWeekday)) := by
  have fits : 8 ≤ 64 := by decide
  simp only [weekdayColumn, selection, BitSet.setWidth_eq_zero_iff fits, Field.decode_setWidth fits]

/-- The column of a field in the canonical expression. -/
def column (r : Rule) : Field → List Char
  | .day | .lastDay => r.dayColumn
  | .weekday | .strictWeekday => r.weekdayColumn
  | f => plainColumn f (r.selection f)

/-- The fields that have a column in the canonical expression. -/
def layout (r : Rule) : List Field :=
  (if r.hasSeconds then [.second] else []) ++ [.minute, .hour, .day, .month, .weekday]

theorem columns_eq (r : Rule) : r.columns = r.layout.map r.column := by
  unfold columns layout
  split <;> rfl

/-- What each column of the canonical expression stands for. -/
theorem describes_column (h : r.IsWellFormed) {f : Field} (shown : f ∈ r.layout) :
    Describes (r.column f) f r.selection := by
  have bounded := isBounded_selection h
  have plain : ∀ f ∈ [Field.second, .minute, .hour, .month], r.selection f ≠ 0 →
      Describes (plainColumn f (r.selection f)) f r.selection := by
    intro f plain ne
    exact describes_plainColumn plain bounded ne
  cases f with
  | second =>
    refine plain .second (by decide) ?_
    have seconds : r.hasSeconds = true := by
      by_cases seconds : r.hasSeconds
      · exact seconds
      · simp [layout, seconds] at shown
    exact of_decide_eq_true seconds
  | minute => exact plain .minute (by decide) h.minutes_ne
  | hour =>
    exact plain .hour (by decide) (mt (BitSet.setWidth_eq_zero_iff (by decide)).1 h.hours_ne)
  | month =>
    exact plain .month (by decide) (mt (BitSet.setWidth_eq_zero_iff (by decide)).1 h.months_ne)
  | day =>
    rw [column, dayColumn_eq]
    exact describes_dayLists (.inl rfl) rfl bounded
  | weekday =>
    rw [column, weekdayColumn_eq]
    exact describes_dayLists (.inr rfl) rfl bounded
  | lastDay | strictWeekday =>
    unfold layout at shown
    split at shown <;> simp at shown

theorem selection_eq_zero_of_hidden {f : Field} (hidden : f.column ∉ r.layout) :
    r.selection f = 0 := by
  cases f with
  | second =>
    have seconds : ¬ r.hasSeconds = true := by
      intro seconds
      simp [layout, seconds, Field.column, Field.marker?] at hidden
    exact Classical.not_not.1 fun ne => seconds (decide_eq_true ne)
  | _ => exact absurd (List.mem_append_right _ (by decide)) hidden

/-- The columns of the canonical expression are words, and none of them looks like a preset. -/
theorem solid_columns (h : r.IsWellFormed) :
    ∀ text ∈ r.columns, text ≠ [] ∧ ∀ c ∈ text, Expression.isBlank c = false ∧ c ≠ '@' := by
  intro text member
  rw [columns_eq] at member
  obtain ⟨f, shown, rfl⟩ := List.mem_map.1 member
  have described := describes_column h shown
  exact ⟨described.ne_nil, described.solid⟩

/-- The canonical expression is read back as its rule, by all options that allow as many columns for
the same fields. -/
theorem read_canonical {o : Expression.Options} (h : r.IsWellFormed)
    (accepted : o.layout? r.layout.length = some r.layout) :
    Expression.read o r.canonical = .ok r := by
  have described : ∀ f ∈ r.layout, Describes (r.column f) f r.selection := by
    intro f shown
    exact describes_column h shown
  obtain ⟨columns, texts, row⟩ := Expression.read_intercalate (o := o) (solid_columns h)
  rw [columns_eq] at texts
  rw [canonical, row,
    Expression.readColumns_eq accepted texts described fun f => selection_eq_zero_of_hidden,
    toRule_selection h]

theorem layout?_default (r : Rule) :
    ({} : Expression.Options).layout? r.layout.length = some r.layout := by
  unfold layout
  split <;> rfl

/-- Read with the default options, the canonical expression of a rule gives the rule back; and no
two rules have the same one. -/
theorem read_canonical_default {r : Rule} (h : r.IsConstructible) :
    Expression.read {} r.canonical = .ok r ∧
      ∀ r' : Rule, r'.IsConstructible → r'.canonical = r.canonical → r' = r := by
  have back : ∀ r' : Rule, r'.IsConstructible → Expression.read {} r'.canonical = .ok r' := by
    intro r' h'
    exact read_canonical h'.isWellFormed (layout?_default r')
  refine ⟨back r h, fun r' h' same => ?_⟩
  have read := back r' h'
  rw [same, back r h] at read
  exact (Except.ok.inj read).symm

/-- At six in the evening of the last Friday of each month. -/
def lastFriday : Rule where
  months := 0xfff
  days := 0
  lastDays := 0x7f000000
  weekdays := 0
  strictWeekdays := 0x20
  hours := 0x40000
  minutes := 0x1
  seconds := 0

theorem isConstructible_lastFriday : lastFriday.IsConstructible :=
  .inr ⟨{}, "0 18 ^7,^1-6 * &fri", rfl⟩

theorem read_canonical_lastFriday :
    lastFriday.canonical = "0 18 ^1-7 * &5" ∧
      Expression.read {} lastFriday.canonical = .ok lastFriday :=
  ⟨rfl, (read_canonical_default isConstructible_lastFriday).1⟩

end Rule

end Recurrence
