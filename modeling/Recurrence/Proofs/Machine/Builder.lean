import Recurrence.Proofs.Machine.Field
import Recurrence.Proofs.Rule.Clause

/-!
# Rules built within a machine's bounds

A builder keeps one word for each field in a list, and the first error. As long as there is none the
words are those of a selection (`Builder.holding`), and calls keep step with adding clauses
(`exists_foldlM_call`). No word has a bit outside its field, so that the words of a rule can be
narrowed to their widths (`yields_build`).
-/

namespace Recurrence

/-- The step that a clause is made with; listed values have none. -/
def Clause.step : Clause → Int
  | .values _ _ => 0
  | .range _ _ _ step => step

namespace Machine

/-- The place of a field's word in a builder. -/
def index : Field → Nat
  | .second => 0
  | .minute => 1
  | .hour => 2
  | .day => 3
  | .lastDay => 4
  | .month => 5
  | .weekday => 6
  | .strictWeekday => 7

/-- The words chosen so far, and the first error. -/
structure Builder where
  sets : List (BitSet 64)
  error : Option ClauseError

namespace Builder

def empty : Builder := ⟨List.replicate 8 0, none⟩

def union (b : Builder) (f : Field) (set : BitSet 64) : Checked Builder := do
  let chosen ← elementAt b.sets (index f)
  let all ← allValues f
  return { b with sets := b.sets.set (index f) (chosen ||| (set &&& all)) }

/-- Adds a tested range to a field, or notes what is wrong with it. -/
def addRange (b : Builder) (f : Field) (low high : Int) (step : Nat) : Checked Builder := do
  match ← (check f low high step).run with
  | .ok (low, high) => b.union f (← encode f low high step)
  | .error fault => return { b with error := some ⟨f, fault⟩ }

/-- The upper bound and the step that a range is called with. -/
def bounds (f : Field) (low high step : Int) : Int × Int :=
  if step ≤ 0 then (low, 0) else if high < 0 then (f.greatest, step) else (high, step)

/-- Makes the choice of a clause, unless an error was noted before. -/
def call (b : Builder) : Clause → Checked Builder
  | .values f vs =>
    vs.foldlM (fun b (v : Nat) => if b.error.isSome then return b else b.addRange f v v 0) b
  | .range f low high step =>
    if b.error.isSome then return b
    else do
      let bounds := bounds f low high step
      b.addRange f low bounds.1 (← narrow 32 bounds.2)

end Builder

/-- Moves the second place for Sunday to the first. -/
def foldSunday (set : BitSet 64) : Checked (BitSet 8) := do
  let week ← narrowSet 8 set
  return (week &&& 0x7f) ||| (week >>> 7)

def orAll (all set : BitSet 64) : BitSet 64 :=
  if set = 0 then all else set

/-- The days and the two kinds of weekdays, when nothing may be left to narrow. -/
def settle (days lastDays : BitSet 32) (weekdays strict : BitSet 8) :
    BitSet 32 × BitSet 8 × BitSet 8 :=
  if days = 0 ∧ lastDays = 0 then
    if weekdays = 0 ∧ strict = 0 then (0x7fffffff, weekdays, strict)
    else (days, weekdays ||| strict, 0)
  else (days, weekdays, strict)

namespace Builder

/-- The rule of the chosen words. -/
def rule (b : Builder) : Checked Rule := do
  let weekdays ← foldSunday (← elementAt b.sets (index .weekday))
  let strict ← foldSunday (← elementAt b.sets (index .strictWeekday))
  let days ← narrowSet 32 (← elementAt b.sets (index .day))
  let lastDays ← narrowSet 32 (← elementAt b.sets (index .lastDay))
  let months ← narrowSet 16 (orAll 0xfff (← elementAt b.sets (index .month)))
  let hours ← narrowSet 32 (orAll 0xffffff (← elementAt b.sets (index .hour)))
  let minutes ← elementAt b.sets (index .minute)
  let seconds ← elementAt b.sets (index .second)
  let (days, weekdays, strict) := settle days lastDays weekdays strict
  return ⟨months, days, lastDays, weekdays, strict, hours, orAll 0xfffffffffffffff minutes, seconds⟩

def build (b : Builder) : Attempt ClauseError Rule :=
  match b.error with
  | some e => throw e
  | none => liftM b.rule

end Builder

/-- The rule that some calls build. -/
def ofClauses (clauses : List Clause) : Attempt ClauseError Rule := do
  let b ← liftM (clauses.foldlM Builder.call Builder.empty)
  b.build

/-! ## Words of a selection -/

namespace Builder

variable {b : Builder} {s : Selection} {r : Except ClauseError Selection} {f : Field}

/-- The builder that holds a selection. -/
def holding (s : Selection) : Builder := ⟨Field.all.map s, none⟩

theorem empty_eq : empty = holding .empty := rfl

theorem elementAt_index (s : Selection) (f : Field) :
    elementAt (Field.all.map s) (index f) = .ok (s f) := by
  cases f <;> rfl

theorem union_eq (s : Selection) (f : Field) (set : BitSet 64) :
    (holding s).union f set = .ok (holding (s.insert f set)) := by
  have words : (Field.all.map s).set (index f) (s f ||| (set &&& f.allValues)) =
      Field.all.map (s.insert f set) := by
    cases f <;> rfl
  rw [union, holding, elementAt_index, ok_bind, allValues_eq, ok_bind, words]
  rfl

/-! ## Calls -/

/-- A builder has made the same choices as a selection, or has the error for which the selection was
refused. -/
def Represents (b : Builder) : Except ClauseError Selection → Prop
  | .ok s => b = holding s
  | .error e => b.error = some e

theorem exists_addRange {low high : Int} {step : Nat} (hstep : step ≤ largestStride) :
    ∃ b, (holding s).addRange f low high step = .ok b ∧
      b.Represents (s.addStride (f, ⟨low, high, step⟩)) := by
  have tested := yields_check f low high step
  unfold Yields at tested
  unfold addRange Selection.addStride Field.rangeSet
  rw [tested, ok_bind]
  cases passed : f.check low high step with
  | error fault => exact ⟨_, rfl, rfl⟩
  | ok bounds =>
    obtain ⟨l, h⟩ := bounds
    obtain ⟨within, rfl, rfl⟩ := Field.check_eq_ok_iff.1 passed
    obtain ⟨least, order, greatest, _⟩ := within
    simp only at least order greatest
    have made : encode f l h step = .ok (f.encode l h step) :=
      encode_eq (by omega) (by omega) (by omega) hstep
    refine ⟨_, ?_, rfl⟩
    simp only [made, ok_bind]
    exact union_eq s f _

theorem exists_addRange_narrow {low high step : Int} (positive : 0 ≤ step)
    (hstep : step ≤ largestStride) :
    ∃ b, (do (holding s).addRange f low high (← narrow 32 step)) = .ok b ∧
      b.Represents ([(f, ⟨low, high, step.toNat⟩)].foldlM Selection.addStride s) := by
  have fits : step < 2 ^ 32 := Int.lt_of_le_of_lt hstep (by decide)
  rw [narrow_eq ⟨positive, fits⟩, ok_bind, List.foldlM_cons]
  simp only [List.foldlM_nil, bind_pure]
  exact exists_addRange (Int.toNat_le.2 hstep)

/-- What each of some steps keeps, going through all of them does. -/
theorem Represents.foldlM {α : Type} {step : Builder → α → Checked Builder}
    {step' : Selection → α → Except ClauseError Selection} {l : List α}
    (h : ∀ b r, ∀ a ∈ l, b.Represents r →
      ∃ b', step b a = .ok b' ∧ b'.Represents (r >>= fun s => step' s a))
    (hb : b.Represents r) :
    ∃ b', l.foldlM step b = .ok b' ∧ b'.Represents (r >>= fun s => l.foldlM step' s) := by
  induction l generalizing b r with
  | nil =>
    refine ⟨b, rfl, ?_⟩
    cases r <;> exact hb
  | cons a l ih =>
    obtain ⟨middle, first, hm⟩ := h b r a List.mem_cons_self hb
    obtain ⟨b', rest, hb'⟩ := ih (fun b r c member => h b r c (List.mem_cons_of_mem a member)) hm
    refine ⟨b', ?_, ?_⟩
    · rw [List.foldlM_cons, first]
      exact rest
    · rw [bind_assoc] at hb'
      simp only [List.foldlM_cons]
      exact hb'

/-- A builder that has noted an error is left as it is. -/
theorem exists_guarded {g : Selection → Except ClauseError Selection} {m : Checked Builder}
    (open_ : ∀ s, b = holding s → ∃ b', m = .ok b' ∧ b'.Represents (g s))
    (hb : b.Represents r) :
    ∃ b', (if b.error.isSome then return b else m) = .ok b' ∧ b'.Represents (r >>= g) := by
  cases r with
  | error e =>
    have noted : b.error = some e := hb
    rw [noted]
    exact ⟨b, rfl, hb⟩
  | ok s =>
    have held : b = holding s := hb
    rw [held]
    exact open_ s held

theorem bounds_step {low high step : Int} (h : step ≤ largestStride) :
    0 ≤ (bounds f low high step).2 ∧ (bounds f low high step).2 ≤ largestStride := by
  unfold bounds
  split
  · exact ⟨Int.le_refl 0, Int.natCast_nonneg _⟩
  · split
    · exact ⟨by omega, h⟩
    · exact ⟨by omega, h⟩

theorem strides_range (f : Field) (low high step : Int) :
    (Clause.range f low high step).strides =
      [(f, ⟨low, (bounds f low high step).1, (bounds f low high step).2.toNat⟩)] := by
  simp only [Clause.strides, bounds]
  split
  · rfl
  · split <;> rfl

/-- A call keeps step with adding its clause. -/
theorem exists_call {c : Clause} (hc : c.step ≤ largestStride) (hb : b.Represents r) :
    ∃ b', b.call c = .ok b' ∧ b'.Represents (r >>= fun s => s.add c) := by
  simp only [Selection.add_eq_foldlM]
  cases c with
  | values f vs =>
    simp only [Clause.strides, List.foldlM_map]
    refine Represents.foldlM (fun b r v _ hb => exists_guarded (fun s held => ?_) hb) hb
    rw [held]
    exact exists_addRange (by decide)
  | range f low high step =>
    have hc : step ≤ largestStride := hc
    obtain ⟨positive, small⟩ : _ ∧ (bounds f low high step).2 ≤ _ := bounds_step hc
    simp only [call, strides_range]
    generalize bounds f low high step = p at positive small
    refine exists_guarded (fun s held => ?_) hb
    rw [held]
    exact exists_addRange_narrow positive small

/-- Calls keep step with adding clauses. -/
theorem exists_foldlM_call {clauses : List Clause} (h : ∀ c ∈ clauses, c.step ≤ largestStride) :
    ∃ b, clauses.foldlM call empty = .ok b ∧
      b.Represents (clauses.foldlM Selection.add .empty) :=
  Represents.foldlM (r := .ok .empty) (fun _ _ c member hb => exists_call (h c member) hb) empty_eq

end Builder

/-! ## Words of a rule -/

theorem foldSunday_eq {set : BitSet 64} (h : ∀ i, set.getLsbD i = true → i < 8) :
    foldSunday set = .ok (Selection.foldSunday set) := by
  rw [foldSunday, narrowSet_eq h]
  rfl

theorem orAll_eq {f : Field} {all set : BitSet 64} (h : f.allValues = all) :
    orAll all set = Selection.orAll f set := by
  rw [orAll, Selection.orAll, h]

theorem settle_eq (s : Selection) :
    settle ((s .day).setWidth 32) ((s .lastDay).setWidth 32) (Selection.foldSunday (s .weekday))
      (Selection.foldSunday (s .strictWeekday)) =
      (s.toRule.days, s.toRule.weekdays, s.toRule.strictWeekdays) := by
  have every : Field.day.allValues.setWidth 32 = (0x7fffffff : BitSet 32) := by decide
  simp only [settle, Selection.toRule, every]
  generalize Selection.foldSunday (s .weekday) = weekdays
  generalize Selection.foldSunday (s .strictWeekday) = strict
  by_cases unanchored : (s .day).setWidth 32 = (0 : BitSet 32) ∧
      (s .lastDay).setWidth 32 = (0 : BitSet 32)
  · simp only [if_pos unanchored]
    by_cases free : weekdays = 0 ∧ strict = 0
    · rw [if_pos free, if_pos ⟨unanchored, free⟩, free.1, free.2]
      rfl
    · rw [if_neg free, if_neg fun both => free both.2]
  · rw [if_neg unanchored, if_neg fun both => unanchored both.1, if_neg unanchored,
      if_neg unanchored]

/-- No bit of a bounded selection is lost when its words are narrowed to those of a rule. -/
theorem rule_eq {s : Selection} (h : s.IsBounded) : (Builder.holding s).rule = .ok s.toRule := by
  have narrowed {w : Nat} {f : Field} {set : BitSet 64}
      (bounded : ∀ i, set.getLsbD i = true → i < f.places) (hw : f.places ≤ w) :
      narrowSet w set = .ok (set.setWidth w) :=
    narrowSet_eq fun i member => Nat.lt_of_lt_of_le (bounded i member) hw
  have months : orAll 0xfff (s .month) = Selection.orAll .month (s .month) := orAll_eq (by decide)
  have hours : orAll 0xffffff (s .hour) = Selection.orAll .hour (s .hour) := orAll_eq (by decide)
  have minutes : orAll 0xfffffffffffffff (s .minute) = Selection.orAll .minute (s .minute) :=
    orAll_eq (by decide)
  unfold Builder.rule Builder.holding
  rw [Builder.elementAt_index, ok_bind, foldSunday_eq (h .weekday), ok_bind,
    Builder.elementAt_index, ok_bind, foldSunday_eq (h .strictWeekday), ok_bind,
    Builder.elementAt_index, ok_bind, narrowed (h .day) (by decide), ok_bind,
    Builder.elementAt_index, ok_bind, narrowed (h .lastDay) (by decide), ok_bind,
    Builder.elementAt_index, ok_bind, months,
    narrowed (fun i => Selection.getLsbD_orAll (h .month)) (by decide), ok_bind,
    Builder.elementAt_index, ok_bind, hours,
    narrowed (fun i => Selection.getLsbD_orAll (h .hour)) (by decide), ok_bind,
    Builder.elementAt_index, ok_bind, Builder.elementAt_index, ok_bind, settle_eq, minutes]
  rfl

theorem yields_build {s : Selection} (h : s.IsBounded) :
    Yields (Builder.holding s).build (.ok s.toRule) :=
  congrArg (Except.map Except.ok) (rule_eq h)

theorem yields_ofClauses {clauses : List Clause} (h : ∀ c ∈ clauses, c.step ≤ largestStride) :
    Yields (ofClauses clauses) (Rule.ofClauses clauses) := by
  obtain ⟨b, called, represents⟩ := Builder.exists_foldlM_call h
  refine Yields.lift_bind called ?_
  unfold Rule.ofClauses
  cases gathered : clauses.foldlM Selection.add .empty with
  | error e =>
    rw [gathered] at represents
    have noted : b.error = some e := represents
    rw [Builder.build, noted]
    rfl
  | ok s =>
    rw [gathered] at represents
    have held : b = Builder.holding s := represents
    rw [held]
    exact yields_build
      (foldlM_keeps (fun _ _ _ => Selection.isBounded_add) Selection.isBounded_empty gathered)

end Machine

end Recurrence
