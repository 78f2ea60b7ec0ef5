import Recurrence.Proofs.Rule.WellFormed
import Recurrence.Rule.Canonical

/-!
# The selection of a rule

A selection is known by its members, and gathering choices adds theirs (`Selection.getLsbD_gather`).
Every well-formed rule is the rule of a selection that leaves open what the defaults supply:
`Selection.toRule` undoes `Rule.selection` (`Rule.toRule_selection`).
-/

namespace Recurrence

theorem BitSet.setWidth_setWidth {w : Nat} (h : w ≤ 64) (set : BitSet w) :
    (set.setWidth 64).setWidth w = set := by
  rw [BitVec.setWidth_setWidth (by omega), BitVec.setWidth_eq]

theorem BitSet.setWidth_eq_zero_iff {w : Nat} (h : w ≤ 64) {set : BitSet w} :
    set.setWidth 64 = (0 : BitSet 64) ↔ set = 0 := by
  constructor
  · intro none
    rw [← setWidth_setWidth h set, none]
    exact BitVec.setWidth_zero _ _
  · rintro rfl
    exact BitVec.setWidth_zero _ _

theorem BitSet.getLsbD_of_setWidth {w i : Nat} {set : BitSet w}
    (h : (set.setWidth 64).getLsbD i = true) : set.getLsbD i = true := by
  rw [BitVec.getLsbD_setWidth, Bool.and_eq_true] at h
  exact h.2

/-! ## Gathering -/

namespace Selection

/-- Adds several choices to a selection. -/
def gather (s : Selection) (choices : List (Field × BitSet 64)) : Selection :=
  choices.foldl (fun s choice => s.insert choice.1 choice.2) s

theorem ext_getLsbD {s s' : Selection}
    (h : ∀ f i, (s f).getLsbD i = true ↔ (s' f).getLsbD i = true) : s = s' := by
  funext f
  apply BitVec.eq_of_getLsbD_eq
  intro i _
  exact Bool.eq_iff_iff.2 (h f i)

theorem getLsbD_gather {s : Selection} {choices : List (Field × BitSet 64)} {f : Field} {i : Nat} :
    (s.gather choices f).getLsbD i = true ↔ (s f).getLsbD i = true ∨
      ∃ choice ∈ choices, choice.1 = f ∧ choice.2.getLsbD i = true ∧ i < f.places := by
  induction choices generalizing s with
  | nil => simp [gather]
  | cons choice choices ih =>
    have step : s.gather (choice :: choices) = (s.insert choice.1 choice.2).gather choices := rfl
    rw [step, ih, getLsbD_insert, or_assoc]
    simp only [List.mem_cons, exists_eq_or_imp]

/-! ## Defaults -/

theorem orAll_of_ne {f : Field} {set : BitSet 64} (h : set ≠ 0) : orAll f set = set :=
  if_neg h

theorem foldSunday_setWidth {set : BitSet 8} (h : ∀ i, set.getLsbD i = true → i < 7) :
    foldSunday (set.setWidth 64) = set := by
  apply BitVec.eq_of_getLsbD_eq
  intro i _
  rw [Bool.eq_iff_iff, getLsbD_foldSunday]
  simp only [BitVec.getLsbD_setWidth, Bool.and_eq_true, decide_eq_true_eq]
  constructor
  · rintro ⟨_, ⟨_, member⟩ | ⟨_, _, member⟩⟩
    · exact member
    · exact absurd (h 7 member) (by omega)
  · intro member
    have := h i member
    exact ⟨this, .inl ⟨by omega, member⟩⟩

end Selection

namespace Rule

/-- What was chosen for a rule, as far as the rule tells: the rule of every day comes of no choice
of days at all. -/
def selection (r : Rule) : Selection
  | .second => r.seconds
  | .minute => r.minutes
  | .hour => r.hours.setWidth 64
  | .day => if r.selectsEveryDay then 0 else r.days.setWidth 64
  | .lastDay => r.lastDays.setWidth 64
  | .month => r.months.setWidth 64
  | .weekday => r.weekdays.setWidth 64
  | .strictWeekday => r.strictWeekdays.setWidth 64

section

variable {r : Rule} (h : r.IsWellFormed)
include h

theorem isBounded_selection : r.selection.IsBounded := by
  intro f i member
  cases f with
  | second => exact h.seconds i member
  | minute => exact h.minutes i member
  | hour => exact h.hours i (BitSet.getLsbD_of_setWidth member)
  | day =>
    simp only [selection] at member
    split at member
    · rw [BitSet.getLsbD_zero] at member
      cases member
    · exact h.days i (BitSet.getLsbD_of_setWidth member)
  | lastDay => exact h.lastDays i (BitSet.getLsbD_of_setWidth member)
  | month => exact h.months i (BitSet.getLsbD_of_setWidth member)
  | weekday => exact Nat.lt_succ_of_lt (h.weekdays i (BitSet.getLsbD_of_setWidth member))
  | strictWeekday =>
    exact Nat.lt_succ_of_lt (h.strictWeekdays i (BitSet.getLsbD_of_setWidth member))

omit h in
theorem setWidth_selection_day :
    (r.selection .day).setWidth 32 = if r.selectsEveryDay then 0 else r.days := by
  rw [selection]
  split
  · rfl
  · exact BitSet.setWidth_setWidth (by decide) r.days

omit h in
theorem selectsEveryDay_iff :
    r.selectsEveryDay = true ↔ r.days.setWidth 64 = Field.day.allValues ∧
      r.lastDays = 0 ∧ r.weekdays = 0 ∧ r.strictWeekdays = 0 := by
  rw [selectsEveryDay, decide_eq_true_eq]

/-- Without days of its own, a rule has weekdays, none of them narrowing. -/
theorem weekdays_of_unanchored (days : r.days = 0) (lastDays : r.lastDays = 0) :
    r.weekdays ≠ 0 ∧ r.strictWeekdays = 0 := by
  constructor
  · rcases h.some_day with some | some | some
    · exact absurd days some
    · exact absurd lastDays some
    · exact some
  · refine Classical.byContradiction fun narrowing => ?_
    rcases h.narrowed narrowing with some | some
    · exact some days
    · exact some lastDays

theorem strictWeekdays_of_open (days : (r.selection .day).setWidth 32 = (0 : BitSet 32))
    (lastDays : r.lastDays = 0) : r.strictWeekdays = 0 := by
  rw [setWidth_selection_day] at days
  split at days
  · rename_i every
    exact (selectsEveryDay_iff.1 every).2.2.2
  · exact (weekdays_of_unanchored h days lastDays).2

/-- The days of a rule are those that were chosen, or every day by default. -/
theorem days_eq_default :
    (if ((r.selection .day).setWidth 32 = (0 : BitSet 32) ∧ r.lastDays = 0) ∧ r.weekdays = 0 ∧
        r.strictWeekdays = 0 then Field.day.allValues.setWidth 32
      else (r.selection .day).setWidth 32) = r.days := by
  rw [setWidth_selection_day]
  by_cases every : r.selectsEveryDay
  · have chosen := selectsEveryDay_iff.1 every
    rw [if_pos every, if_pos ⟨⟨rfl, chosen.2.1⟩, chosen.2.2⟩, ← chosen.1]
    exact BitSet.setWidth_setWidth (by decide) r.days
  · rw [if_neg every, if_neg]
    rintro ⟨⟨days, lastDays⟩, noWeekdays, _⟩
    exact (weekdays_of_unanchored h days lastDays).1 noWeekdays

/-- The defaults give back what the selection of a rule leaves open. -/
theorem toRule_selection : r.selection.toRule = r := by
  have months : (Selection.orAll .month (r.selection .month)).setWidth 16 = r.months := by
    rw [Selection.orAll_of_ne]
    · exact BitSet.setWidth_setWidth (by decide) r.months
    · exact mt (BitSet.setWidth_eq_zero_iff (by decide)).1 h.months_ne
  have hours : (Selection.orAll .hour (r.selection .hour)).setWidth 32 = r.hours := by
    rw [Selection.orAll_of_ne]
    · exact BitSet.setWidth_setWidth (by decide) r.hours
    · exact mt (BitSet.setWidth_eq_zero_iff (by decide)).1 h.hours_ne
  have minutes : Selection.orAll .minute (r.selection .minute) = r.minutes :=
    Selection.orAll_of_ne h.minutes_ne
  have lastDays : (r.selection .lastDay).setWidth 32 = r.lastDays :=
    BitSet.setWidth_setWidth (by decide) r.lastDays
  have weekdays : Selection.foldSunday (r.selection .weekday) = r.weekdays :=
    Selection.foldSunday_setWidth h.weekdays
  have strict : Selection.foldSunday (r.selection .strictWeekday) = r.strictWeekdays :=
    Selection.foldSunday_setWidth h.strictWeekdays
  simp only [Selection.toRule, months, hours, minutes, lastDays, weekdays, strict,
    days_eq_default h]
  -- what is left open decides about the weekdays only, and then none of them is narrowing
  split
  · rename_i unanchored
    have none := strictWeekdays_of_open h unanchored.1 unanchored.2
    rw [none, BitSet.or_zero, ← none]
    rfl
  · rfl

end

end Rule

end Recurrence
