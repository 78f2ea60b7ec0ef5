import Recurrence.Proofs.Expression.RoundTrip

/-!
# Normalising under the options of the reader

A row of columns begins with seconds exactly when its rule has seconds
(`Rule.Realises.hasSeconds_iff`, `open_second_iff`), and it may leave the weekdays out, while the
canonical expression never does. Adding them gives a number of columns that the same options read
with the same seconds (`Options.layout?_withWeekday`), so an expression that was read is read back
from its canonical form by the options of its own reader (`read_canonical_of_read`).
-/

namespace Recurrence

/-! ## Seconds -/

/-- A stride within a field holds its lowest value at least. -/
theorem Stride.IsWithin.holds_low {s : Stride} {f : Field} (h : s.IsWithin f) :
    s.Holds s.low.toNat := by
  obtain ⟨least, order, _, _⟩ := h
  have natural : (s.low.toNat : Int) = s.low := Int.toNat_of_nonneg (by omega)
  rw [Holds, natural, Int.sub_self]
  exact ⟨Int.le_refl _, order, Int.dvd_zero _⟩

theorem Rule.Realises.hasSeconds_iff {r : Rule} {c : Choices} (h : r.Realises c)
    (bounded : c.IsBounded) : r.hasSeconds = true ↔ ¬c.Open .second := by
  rw [Rule.hasSeconds, decide_eq_true_eq, Ne, not_iff_not]
  constructor
  · intro none v chosen
    have small : v < 60 := Nat.lt_succ_of_le (bounded .second v chosen).2
    have member := (h.seconds v).2 ⟨small, chosen⟩
    rw [none, BitSet.getLsbD_zero] at member
    cases member
  · intro none
    apply BitSet.ext_getLsbD
    intro i
    rw [h.seconds, BitSet.getLsbD_zero]
    exact ⟨fun chosen => absurd chosen.2 (none i), nofun⟩

namespace Expression

theorem Item.Spelled.target_eq_second_iff {column : Field} {text : List Char} {item : Item}
    (h : Spelled column text item) : item.target = .second ↔ column = .second := by
  cases h with
  | mk marker place plain ranged stepped =>
    cases marker with
    | none => exact Iff.rfl
    | some m =>
      rw [← place m rfl]
      cases m <;> simp [Marker.target, Marker.column]

theorem open_second_iff {row : List (Field × List Char)} (good : ∀ c ∈ row, IsColumn c.1 c.2) :
    (choicesOfRow row).Open .second ↔ .second ∉ row.map Prod.fst := by
  constructor
  · intro none shown
    obtain ⟨c, member, second⟩ := List.mem_map.1 shown
    obtain ⟨text, others, pieces⟩ := List.exists_cons_of_ne_nil (List.splitOn_ne_nil ',' c.2)
    have piece : text ∈ c.2.splitOn ',' := by
      rw [pieces]
      exact List.mem_cons_self
    obtain ⟨item, spelled, within⟩ := good c member text piece
    have target := spelled.target_eq_second_iff.2 second
    have fixed : ¬item.LeavesOpen := by
      intro leaves
      simp [Item.LeavesOpen, target] at leaves
    exact none item.stride.low.toNat
      ⟨c, member, text, piece, item, spelled, target.symm, fixed, within.holds_low⟩
  · intro hidden v chosen
    obtain ⟨c, member, text, piece, item, spelled, target, _⟩ := chosen
    exact hidden (List.mem_map.2 ⟨c, member, spelled.target_eq_second_iff.1 target.symm⟩)

/-! ## Weekdays -/

/-- The fields of a row with a column for weekdays, whether or not they were left out. -/
def withWeekday (fields : List Field) : List Field :=
  if .weekday ∈ fields then fields else fields ++ [.weekday]

namespace Options

variable {o : Options} {count : Nat} {fields : List Field}

theorem withWeekday_eq (h : o.layout? count = some fields) :
    (.second ∈ fields ↔ o.showsSeconds count = true) ∧
      withWeekday fields =
        (if o.showsSeconds count then [.second] else []) ++
          [.minute, .hour, .day, .month, .weekday] := by
  unfold layout? at h
  split at h
  · cases h
    cases o.showsSeconds count <;> cases o.showsWeekday count <;> simp [withWeekday]
  · cases h

/-- With the weekdays there are five columns, or six when a row shows seconds. So many show the
same seconds again, and the weekdays. -/
theorem shows_all {shown : Bool} (h : o.showsSeconds count = shown) :
    (o.fewest ≤ 5 + shown.toNat ∧ 5 + shown.toNat ≤ o.most) ∧
      o.showsSeconds (5 + shown.toNat) = shown ∧ o.showsWeekday (5 + shown.toNat) = true := by
  obtain ⟨seconds, weekdayOptional, presets⟩ := o
  cases shown <;> cases seconds <;> cases weekdayOptional <;>
    simp_all [fewest, most, showsSeconds, showsWeekday]

theorem layout?_withWeekday (h : o.layout? count = some fields) :
    o.layout? (withWeekday fields).length = some (withWeekday fields) := by
  obtain ⟨_, all⟩ := withWeekday_eq h
  have length : (withWeekday fields).length = 5 + (o.showsSeconds count).toNat := by
    rw [all]
    cases o.showsSeconds count <;> rfl
  obtain ⟨bounds, seconds, weekday⟩ := shows_all (rfl : o.showsSeconds count = _)
  rw [length, layout?, if_pos bounds, seconds, weekday, if_pos rfl, List.append_assoc, all]
  rfl

end Options

/-- The canonical expression of a rule has the columns of a row that the rule was read from, and one
for weekdays. -/
theorem layout_eq_withWeekday {o : Options} {texts : List (List Char)} {fields : List Field}
    {r : Rule} (layout : o.layout? texts.length = some fields)
    (good : ∀ c ∈ fields.zip texts, IsColumn c.1 c.2)
    (realises : r.Realises (choicesOfRow (fields.zip texts))) : r.layout = withWeekday fields := by
  obtain ⟨second, all⟩ := Options.withWeekday_eq layout
  have whole : fields.length ≤ texts.length := Nat.le_of_eq (layout?_bounds layout).2.2
  have seconds : r.hasSeconds = true ↔ o.showsSeconds texts.length = true := by
    rw [realises.hasSeconds_iff (isBounded_choicesOfRow good), open_second_iff good,
      Classical.not_not, List.map_fst_zip whole, second]
  rw [all, Rule.layout]
  simp only [seconds]

/-! ## Expressions -/

theorem not_at_of_read_eq_ok {o : Options} {text : String} {r : Rule}
    (row : ∀ word ∈ (columnTexts text).head?, ∀ preset : Preset, ¬preset.IsNamed word)
    (h : read o text = .ok r) : ∀ word ∈ (columnTexts text).head?, word.head? ≠ some '@' := by
  intro word first begins
  have head := first
  rw [columnTexts_eq, List.head?_map, Option.mem_def, Option.map_eq_some_iff] at head
  obtain ⟨token, head, rfl⟩ := head
  have sign : (words text.toList).head?.filter (fun word => word.text.head? = some '@') =
      some token := by
    rw [head, Option.filter_some, if_pos (decide_eq_true begins)]
  simp only [read, sign] at h
  obtain ⟨_, _, preset, named, _⟩ := readPreset_eq_ok_iff.1 h
  exact row token.text first preset named

/-- **Normalising is stable under the reader's own options.** When some options read an expression
that does not begin with a preset, they read the canonical expression of its rule, as the same rule;
and they read it as the same row of fields, with the weekdays added where they were left out. -/
theorem read_canonical_of_read (o : Options) (text : String) (r : Rule)
    (row : ∀ word ∈ (columnTexts text).head?, ∀ preset : Preset, ¬preset.IsNamed word)
    (h : read o text = .ok r) :
    read o r.canonical = .ok r ∧
      ∃ fields, o.layout? (columnTexts text).length = some fields ∧
        o.layout? (columnTexts r.canonical).length = some (withWeekday fields) := by
  have wellFormed : r.IsWellFormed := Rule.IsConstructible.isWellFormed (.inr ⟨o, text, h⟩)
  rw [read_eq_readColumns (not_at_of_read_eq_ok row h), readColumns_eq_ok_iff,
    ← length_columnTexts, ← columnTexts_eq] at h
  obtain ⟨fields, layout, _, good, realises⟩ := h
  have same := layout_eq_withWeekday layout good realises
  have accepted := Options.layout?_withWeekday layout
  refine ⟨Rule.read_canonical wellFormed ?_, fields, layout, ?_⟩
  · rw [same, accepted]
  · rw [Rule.canonical, columnTexts_intercalate (Rule.solid_columns wellFormed), Rule.columns_eq,
      List.length_map, same, accepted]

/-- Half a minute past noon on the first day of each month. -/
def firstNoons : Rule where
  months := 0xfff
  days := 0x1
  lastDays := 0
  weekdays := 0
  strictWeekdays := 0
  hours := 0x1000
  minutes := 0x1
  seconds := 0x40000000

theorem read_canonical_firstNoons :
    firstNoons.canonical = "30 0 12 1 * *" ∧
      read ⟨.required, true, true⟩ "30 0 12 1 *" = .ok firstNoons ∧
      read ⟨.required, true, true⟩ firstNoons.canonical = .ok firstNoons ∧
      ∃ fields, Options.layout? ⟨.required, true, true⟩ 5 = some fields ∧
        Options.layout? ⟨.required, true, true⟩ (columnTexts firstNoons.canonical).length =
          some (withWeekday fields) := by
  have made : read ⟨.required, true, true⟩ "30 0 12 1 *" = .ok firstNoons := rfl
  have plain : ∀ word ∈ (columnTexts "30 0 12 1 *").head?, word.head? ≠ some '@' := by decide
  have row : ∀ word ∈ (columnTexts "30 0 12 1 *").head?, ∀ preset : Preset,
      ¬preset.IsNamed word := by
    intro word first preset named
    exact plain word first (Preset.head?_of_isNamed named)
  exact ⟨rfl, made, read_canonical_of_read _ _ _ row made⟩

end Expression

end Recurrence
