import Recurrence.Expression.Reader
import Recurrence.Proofs.Field.Stride
import Recurrence.Rule.Clause

/-!
# Well-formed rules

Rules come from clauses or from expressions (`Rule.IsConstructible`). Both ways gather values in a
selection that never leaves the places of its fields (`Selection.IsBounded`), and a selection
becomes a rule by one function; so what holds of the rule of a bounded selection holds of every rule
(`Rule.IsConstructible.isWellFormed`).
-/

namespace Recurrence

open Expression (Options)

/-! ## Bounded selections -/

namespace Selection

/-- A selection whose sets lie within the places of their fields. -/
def IsBounded (s : Selection) : Prop :=
  ∀ f i, (s f).getLsbD i = true → i < f.places

theorem isBounded_empty : empty.IsBounded := by
  intro f i h
  rw [empty, BitSet.getLsbD_zero] at h
  cases h

theorem getLsbD_insert {s : Selection} {f g : Field} {set : BitSet 64} {i : Nat} :
    (s.insert f set g).getLsbD i = true ↔
      (s g).getLsbD i = true ∨ f = g ∧ set.getLsbD i = true ∧ i < g.places := by
  by_cases same : f = g
  · subst same
    rw [insert, if_pos rfl, BitVec.getLsbD_or, BitVec.getLsbD_and, Bool.or_eq_true,
      Bool.and_eq_true, Field.getLsbD_allValues]
    simp only [true_and]
  · rw [insert, if_neg (Ne.symm same)]
    simp only [same, false_and, or_false]

theorem isBounded_insert {s : Selection} (h : s.IsBounded) (f : Field) (set : BitSet 64) :
    (s.insert f set).IsBounded := by
  intro g i member
  rcases getLsbD_insert.1 member with member | ⟨_, _, inside⟩
  · exact h g i member
  · exact inside

theorem getLsbD_foldSunday {set : BitSet 64} {i : Nat} :
    (foldSunday set).getLsbD i = true ↔
      i < 7 ∧ (set.getLsbD i = true ∨ i = 0 ∧ set.getLsbD 7 = true) := by
  have mask : ((0x7f : BitSet 8).getLsbD i = true) ↔ i < 7 := by
    by_cases inside : i < 8
    · have table : ∀ i < 8, ((0x7f : BitSet 8).getLsbD i = true) ↔ i < 7 := by decide
      exact table i inside
    · rw [BitVec.getLsbD_of_ge _ _ (Nat.le_of_not_lt inside)]
      simp only [Bool.false_eq_true, false_iff]
      omega
  simp only [foldSunday, BitVec.getLsbD_or, BitVec.getLsbD_and, BitVec.getLsbD_ushiftRight,
    BitVec.getLsbD_setWidth, Bool.or_eq_true, Bool.and_eq_true, decide_eq_true_eq]
  constructor
  · rintro (⟨⟨_, member⟩, inside⟩ | ⟨inside, member⟩)
    · exact ⟨mask.1 inside, .inl member⟩
    · have first : i = 0 := by omega
      subst first
      exact ⟨by omega, .inr ⟨rfl, member⟩⟩
  · rintro ⟨inside, member | ⟨rfl, member⟩⟩
    · exact .inl ⟨⟨by omega, member⟩, mask.2 inside⟩
    · exact .inr ⟨by omega, member⟩

end Selection

/-! ## Well-formed rules -/

/-- A rule whose sets stay within their fields, that restricts no field to nothing, and that narrows
days only where it has days to narrow. -/
structure Rule.IsWellFormed (r : Rule) : Prop where
  months : ∀ i, r.months.getLsbD i = true → i < 12
  days : ∀ i, r.days.getLsbD i = true → i < 31
  lastDays : ∀ i, r.lastDays.getLsbD i = true → i < 31
  weekdays : ∀ i, r.weekdays.getLsbD i = true → i < 7
  strictWeekdays : ∀ i, r.strictWeekdays.getLsbD i = true → i < 7
  hours : ∀ i, r.hours.getLsbD i = true → i < 24
  minutes : ∀ i, r.minutes.getLsbD i = true → i < 60
  seconds : ∀ i, r.seconds.getLsbD i = true → i < 60
  months_ne : r.months ≠ 0
  hours_ne : r.hours ≠ 0
  minutes_ne : r.minutes ≠ 0
  some_day : r.days ≠ 0 ∨ r.lastDays ≠ 0 ∨ r.weekdays ≠ 0
  narrowed : r.strictWeekdays ≠ 0 → r.days ≠ 0 ∨ r.lastDays ≠ 0

namespace Selection

theorem getLsbD_orAll {f : Field} {set : BitSet 64} {i : Nat}
    (bounded : ∀ i, set.getLsbD i = true → i < f.places)
    (h : (orAll f set).getLsbD i = true) : i < f.places := by
  unfold orAll at h
  split at h
  · exact Field.getLsbD_allValues.1 h
  · exact bounded i h

theorem orAll_ne_zero (f : Field) (set : BitSet 64) : orAll f set ≠ 0 := by
  unfold orAll
  split
  · rw [BitSet.ne_zero_iff]
    exact ⟨0, Field.getLsbD_allValues.2 (by cases f <;> decide)⟩
  · assumption

theorem setWidth_ne_zero {w : Nat} {f : Field} {set : BitSet 64} (hw : f.places ≤ w)
    (bounded : ∀ i, set.getLsbD i = true → i < f.places) (h : set ≠ 0) : set.setWidth w ≠ 0 := by
  obtain ⟨i, member⟩ := BitSet.ne_zero_iff.1 h
  rw [BitSet.ne_zero_iff]
  refine ⟨i, ?_⟩
  rw [BitVec.getLsbD_setWidth, member, Bool.and_true, decide_eq_true_eq]
  exact Nat.lt_of_lt_of_le (bounded i member) hw

/-- Defaults never lead outside a field, and leave no field without a value. -/
theorem isWellFormed_toRule {s : Selection} (h : s.IsBounded) : s.toRule.IsWellFormed where
  months i member := by
    simp only [toRule, BitVec.getLsbD_setWidth, Bool.and_eq_true] at member
    exact getLsbD_orAll (h .month) member.2
  days i member := by
    simp only [toRule] at member
    split at member
    · rw [BitVec.getLsbD_setWidth, Bool.and_eq_true] at member
      exact Field.getLsbD_allValues.1 member.2
    · rw [BitVec.getLsbD_setWidth, Bool.and_eq_true] at member
      exact h .day i member.2
  lastDays i member := by
    simp only [toRule, BitVec.getLsbD_setWidth, Bool.and_eq_true] at member
    exact h .lastDay i member.2
  weekdays i member := by
    simp only [toRule] at member
    split at member
    · rw [BitVec.getLsbD_or, Bool.or_eq_true] at member
      rcases member with member | member
      · exact (getLsbD_foldSunday.1 member).1
      · exact (getLsbD_foldSunday.1 member).1
    · exact (getLsbD_foldSunday.1 member).1
  strictWeekdays i member := by
    simp only [toRule] at member
    split at member
    · rw [BitSet.getLsbD_zero] at member
      cases member
    · exact (getLsbD_foldSunday.1 member).1
  hours i member := by
    simp only [toRule, BitVec.getLsbD_setWidth, Bool.and_eq_true] at member
    exact getLsbD_orAll (h .hour) member.2
  minutes i member := getLsbD_orAll (h .minute) member
  seconds i member := h .second i member
  months_ne := setWidth_ne_zero (f := .month) (by decide) (fun i => getLsbD_orAll (h .month))
    (orAll_ne_zero .month _)
  hours_ne := setWidth_ne_zero (f := .hour) (by decide) (fun i => getLsbD_orAll (h .hour))
    (orAll_ne_zero .hour _)
  minutes_ne := orAll_ne_zero .minute _
  some_day := by
    simp only [toRule]
    by_cases unanchored : (s .day).setWidth 32 = (0 : BitSet 32) ∧
        (s .lastDay).setWidth 32 = (0 : BitSet 32)
    · by_cases free : foldSunday (s .weekday) = 0 ∧ foldSunday (s .strictWeekday) = 0
      · refine .inl ?_
        rw [if_pos ⟨unanchored, free⟩]
        decide
      · refine .inr (.inr ?_)
        rw [if_pos unanchored]
        exact mt BitVec.or_eq_zero_iff.1 free
    · rcases Classical.not_and_iff_not_or_not.1 unanchored with days | lastDays
      · refine .inl ?_
        rw [if_neg fun none => days none.1.1]
        exact days
      · exact .inr (.inl lastDays)
  narrowed := by
    simp only [toRule]
    intro strict
    split at strict
    · exact absurd rfl strict
    · rename_i anchored
      rw [if_neg fun none => anchored none.1]
      exact Classical.not_and_iff_not_or_not.1 anchored

end Selection

/-! ## Where rules come from -/

/-- A rule that some clauses or some expression, read with some options, describe. -/
def Rule.IsConstructible (r : Rule) : Prop :=
  (∃ clauses, Rule.ofClauses clauses = .ok r) ∨
    ∃ (o : Options) (text : String), Expression.read o text = .ok r

theorem foldlM_keeps {α σ ε : Type} {step : σ → α → Except ε σ} {P : σ → Prop}
    (keeps : ∀ s a s', P s → step s a = .ok s' → P s') {l : List α} {s s' : σ} (hs : P s)
    (h : l.foldlM step s = .ok s') : P s' := by
  induction l generalizing s with
  | nil =>
    cases h
    exact hs
  | cons a l ih =>
    rw [List.foldlM_cons] at h
    cases first : step s a with
    | error e =>
      rw [first] at h
      cases h
    | ok middle =>
      rw [first] at h
      exact ih (keeps s a middle hs first) h

theorem Selection.isBounded_add {s s' : Selection} {c : Clause} (h : s.IsBounded)
    (added : s.add c = .ok s') : s'.IsBounded := by
  unfold add at added
  split at added
  · cases added
    exact isBounded_insert h _ _
  · cases added

theorem Rule.exists_selection_of_ofClauses {clauses : List Clause} {r : Rule}
    (h : ofClauses clauses = .ok r) : ∃ s : Selection, s.IsBounded ∧ s.toRule = r := by
  obtain ⟨s, gathered, rfl⟩ := Except.map_eq_ok_iff.1 h
  exact ⟨s, foldlM_keeps (fun _ _ _ => Selection.isBounded_add) Selection.isBounded_empty gathered,
    rfl⟩

namespace Expression

theorem isBounded_addItem {input : String} {column : Field} {s s' : Selection}
    {item : Token × Nat} (h : s.IsBounded) (added : addItem input column s item = .ok s') :
    s'.IsBounded := by
  unfold addItem at added
  split at added
  · cases added
    exact Selection.isBounded_insert h _ _
  · cases added

theorem isBounded_addColumn {input : String} {s s' : Selection} {column : Field × Token}
    (h : s.IsBounded) (added : addColumn input s column = .ok s') : s'.IsBounded :=
  foldlM_keeps (fun _ _ _ => isBounded_addItem) h added

theorem exists_selection_of_readColumns {o : Options} {input : String} {columns : List Token}
    {r : Rule} (h : readColumns o input columns = .ok r) :
    ∃ s : Selection, s.IsBounded ∧ s.toRule = r := by
  unfold readColumns at h
  split at h
  · cases h
  · obtain ⟨s, gathered, rfl⟩ := Except.map_eq_ok_iff.1 h
    exact ⟨s, foldlM_keeps (fun _ _ _ => isBounded_addColumn) Selection.isBounded_empty gathered,
      rfl⟩

theorem exists_selection_of_preset (preset : Preset) :
    ∃ s : Selection, s.IsBounded ∧ s.toRule = preset.rule := by
  refine ⟨_, ?_, rfl⟩
  have bounded := Selection.isBounded_empty
  generalize Selection.empty = s at bounded ⊢
  generalize preset.choices = choices
  induction choices generalizing s with
  | nil => exact bounded
  | cons choice choices ih => exact ih _ (Selection.isBounded_insert bounded _ _)

theorem exists_selection_of_read {o : Options} {input : String} {r : Rule}
    (h : read o input = .ok r) : ∃ s : Selection, s.IsBounded ∧ s.toRule = r := by
  unfold read at h
  simp only at h
  split at h
  · unfold readPreset at h
    split at h
    · cases h
    · split at h
      · cases h
      · split at h
        · cases h
          exact exists_selection_of_preset _
        · cases h
  · exact exists_selection_of_readColumns h

end Expression

theorem Rule.IsConstructible.exists_selection {r : Rule} (h : r.IsConstructible) :
    ∃ s : Selection, s.IsBounded ∧ s.toRule = r := by
  rcases h with ⟨clauses, h⟩ | ⟨o, text, h⟩
  · exact exists_selection_of_ofClauses h
  · exact Expression.exists_selection_of_read h

/-- Every rule is well-formed, whichever way it came about. -/
theorem Rule.IsConstructible.isWellFormed {r : Rule} (h : r.IsConstructible) : r.IsWellFormed := by
  obtain ⟨s, bounded, rfl⟩ := h.exists_selection
  exact Selection.isWellFormed_toRule bounded

end Recurrence
