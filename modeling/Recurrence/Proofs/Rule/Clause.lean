import Recurrence.Proofs.Rule.Defaults

/-!
# Rules from clauses

A clause asks for strides, one for each listed value and one for a range (`Clause.strides`), and
adding clauses to a selection is adding their strides one by one (`Selection.foldlM_add`). So a list
of clauses either is refused for its first bad stride, whatever comes behind it, or its rule
realises the values of all its strides; how they are divided among clauses and in which order they
come does not matter (`Rule.realises_ofClauses`).
-/

namespace Recurrence

/-- Going through the lists of some members is going through each of them in turn. -/
theorem foldlM_flatMap {α β σ ε : Type} {step : σ → β → Except ε σ} {f : α → List β} (l : List α)
    (s : σ) : (l.flatMap f).foldlM step s = l.foldlM (fun s a => (f a).foldlM step s) s := by
  induction l generalizing s with
  | nil => rfl
  | cons a l ih =>
    rw [List.flatMap_cons, List.foldlM_append, List.foldlM_cons]
    exact congrArg _ (funext ih)

/-! ## Strides of clauses -/

/-- The strides that a clause asks for, in their order. -/
def Clause.strides : Clause → List (Field × Stride)
  | values f vs => vs.map fun (v : Nat) => (f, ⟨v, v, 0⟩)
  | range f low high step =>
    if step ≤ 0 then [(f, ⟨low, low, 0⟩)]
    else [(f, ⟨low, if high < 0 then f.greatest else high, step.toNat⟩)]

/-- The values that some strides choose. -/
def Stride.chosen (strides : List (Field × Stride)) : Choices :=
  fun f v => ∃ p ∈ strides, f = p.1 ∧ p.2.Holds v

/-- The first of some strides that is not within its field, and what is wrong with it. -/
def Stride.FirstFault (strides : List (Field × Stride)) (e : ClauseError) : Prop :=
  ∃ before s after, strides = before ++ (e.field, s) :: after ∧
    (∀ p ∈ before, p.2.IsWithin p.1) ∧ ¬s.IsWithin e.field ∧ s.HasFault e.field e.fault

namespace Selection

/-- Adds the values of a stride to a field. -/
def addStride (s : Selection) (p : Field × Stride) : Except ClauseError Selection :=
  match p.1.rangeSet p.2.low p.2.high p.2.step with
  | .ok set => .ok (s.insert p.1 set)
  | .error fault => .error ⟨p.1, fault⟩

variable {s : Selection} {f : Field}

theorem insert_zero (s : Selection) (f : Field) : s.insert f 0 = s :=
  (adds_insert_zero s f).unique (Adds.nothing s)

theorem insert_or (s : Selection) (f : Field) (set set' : BitSet 64) :
    s.insert f (set ||| set') = (s.insert f set).insert f set' := by
  apply ext_getLsbD
  intro g i
  simp only [getLsbD_insert, BitVec.getLsbD_or, Bool.or_eq_true, or_and_right, and_or_left,
    or_assoc]

/-- Listed values are added one by one. -/
theorem foldlM_values (s : Selection) (f : Field) (vs : List Nat) (set : BitSet 64) :
    (match vs.foldlM (fun (set : BitSet 64) (v : Nat) => (f.rangeSet v v 0).map (set ||| ·))
        set with
      | .ok set => Except.ok (s.insert f set)
      | .error fault => .error ⟨f, fault⟩) =
      (vs.map fun (v : Nat) => ((f, ⟨v, v, 0⟩) : Field × Stride)).foldlM addStride
        (s.insert f set) := by
  induction vs generalizing set with
  | nil => rfl
  | cons v vs ih =>
    rw [List.map_cons, List.foldlM_cons, List.foldlM_cons]
    cases made : f.rangeSet v v 0 with
    | error fault =>
      simp only [addStride, made]
      rfl
    | ok one =>
      have added : addStride (s.insert f set) (f, ⟨v, v, 0⟩) = .ok (s.insert f (set ||| one)) := by
        simp only [addStride, made, insert_or]
      rw [added]
      exact ih (set ||| one)

theorem add_eq_foldlM (s : Selection) (c : Clause) : s.add c = c.strides.foldlM addStride s := by
  cases c with
  | values f vs =>
    have values := foldlM_values s f vs 0
    rw [insert_zero] at values
    exact values
  | range f low high step =>
    simp only [add, Clause.set, Clause.bounds, Clause.strides, Clause.field]
    by_cases single : step ≤ 0
    · rw [if_pos single, if_pos single, List.foldlM_cons, addStride]
      cases f.rangeSet low low 0 <;> rfl
    · rw [if_neg single, if_neg single, List.foldlM_cons, addStride]
      by_cases upper : high < 0
      · simp only [if_pos upper]
        cases f.rangeSet low f.greatest step.toNat <;> rfl
      · simp only [if_neg upper]
        cases f.rangeSet low high step.toNat <;> rfl

/-- Adding clauses is adding their strides one by one. -/
theorem foldlM_add (s : Selection) (clauses : List Clause) :
    clauses.foldlM add s = (clauses.flatMap Clause.strides).foldlM addStride s := by
  rw [foldlM_flatMap]
  have same : add = fun s c => c.strides.foldlM addStride s :=
    funext fun s => funext (add_eq_foldlM s)
  rw [← same]

theorem addStride_eq_error_iff {p : Field × Stride} {e : ClauseError} :
    s.addStride p = .error e ↔ e.field = p.1 ∧ p.2.HasFault p.1 e.fault := by
  rw [← Field.rangeSet_eq_error_iff, addStride]
  cases made : p.1.rangeSet p.2.low p.2.high p.2.step with
  | ok set =>
    constructor
    · intro h
      cases h
    · rintro ⟨_, ⟨⟩⟩
  | error fault =>
    simp only [Except.error.injEq]
    constructor
    · rintro rfl
      exact ⟨rfl, rfl⟩
    · rintro ⟨field, rfl⟩
      rw [← field]

theorem gathers_addStride :
    Gathers addStride (fun p => p.2.IsWithin p.1) (fun p f v => f = p.1 ∧ p.2.Holds v) where
  accepts {p} within s := by
    obtain ⟨set, made⟩ := Field.exists_rangeSet_iff.2 within
    refine ⟨s.insert p.1 set, ?_⟩
    simp only [addStride, made]
  adds {s p s'} added := by
    unfold addStride at added
    split at added
    · rename_i set made
      cases added
      exact ⟨Field.exists_rangeSet_iff.1 ⟨set, made⟩, adds_insert made s⟩
    · cases added

end Selection

theorem Stride.isBounded_chosen {strides : List (Field × Stride)}
    (within : ∀ p ∈ strides, p.2.IsWithin p.1) : Choices.IsBounded (chosen strides) := by
  rintro f v ⟨p, member, rfl, holds⟩
  exact bounds_of_holds (within p member) holds

/-! ## Rules -/

namespace Rule

variable {clauses clauses' : List Clause}

theorem ofClauses_eq_ok_iff {r : Rule} :
    ofClauses clauses = .ok r ↔
      (∀ p ∈ clauses.flatMap Clause.strides, p.2.IsWithin p.1) ∧
        r.Realises (Stride.chosen (clauses.flatMap Clause.strides)) := by
  rw [ofClauses, Selection.foldlM_add]
  exact Selection.gathers_addStride.foldlM.toRule_eq_ok_iff Stride.isBounded_chosen

theorem ofClauses_eq_error_iff {e : ClauseError} :
    ofClauses clauses = .error e ↔ Stride.FirstFault (clauses.flatMap Clause.strides) e := by
  have failed : ofClauses clauses = .error e ↔
      (clauses.flatMap Clause.strides).foldlM Selection.addStride Selection.empty = .error e := by
    rw [ofClauses, Selection.foldlM_add, Except.map_eq_error_iff]
  rw [failed, Selection.gathers_addStride.foldlM_eq_error_iff Selection.addStride_eq_error_iff]
  constructor
  · intro h
    obtain ⟨before, ⟨f, s⟩, after, split, within, rfl, wrong⟩ := h
    refine ⟨before, s, after, split, within, ?_, wrong⟩
    intro inside
    obtain ⟨set, made⟩ := Field.exists_rangeSet_iff.2 inside
    rw [Field.rangeSet_eq_error_iff.2 wrong] at made
    cases made
  · intro h
    obtain ⟨before, s, after, split, within, _, wrong⟩ := h
    exact ⟨before, (e.field, s), after, split, within, rfl, wrong⟩

/-- **Clauses mean what they list.** They make a rule exactly when each of their strides is within
its field, and are refused for the first that is not otherwise. The rule realises the values that
the clauses choose, so that two lists of good clauses for the same values make the same rule. -/
theorem realises_ofClauses (clauses : List Clause) :
    ((∃ r, ofClauses clauses = .ok r) ↔
      ∀ p ∈ clauses.flatMap Clause.strides, p.2.IsWithin p.1) ∧
    (∀ e, ofClauses clauses = .error e ↔ Stride.FirstFault (clauses.flatMap Clause.strides) e) ∧
    (∀ r, ofClauses clauses = .ok r →
      r.Realises (Stride.chosen (clauses.flatMap Clause.strides))) ∧
    (∀ clauses' : List Clause,
      (∀ p ∈ clauses.flatMap Clause.strides, p.2.IsWithin p.1) →
      (∀ p ∈ clauses'.flatMap Clause.strides, p.2.IsWithin p.1) →
      (∀ f v, Stride.chosen (clauses.flatMap Clause.strides) f v ↔
        Stride.chosen (clauses'.flatMap Clause.strides) f v) →
      ofClauses clauses = ofClauses clauses') := by
  have exists_iff : ∀ clauses, (∃ r, ofClauses clauses = .ok r) ↔
      ∀ p ∈ clauses.flatMap Clause.strides, p.2.IsWithin p.1 := by
    intro clauses
    constructor
    · rintro ⟨r, made⟩
      exact (ofClauses_eq_ok_iff.1 made).1
    · intro within
      cases made : ofClauses clauses with
      | ok r => exact ⟨r, rfl⟩
      | error e =>
        obtain ⟨before, s, after, split, _, outside, _⟩ := ofClauses_eq_error_iff.1 made
        refine absurd (within (e.field, s) ?_) outside
        rw [split]
        exact List.mem_append_right before List.mem_cons_self
  refine ⟨exists_iff clauses, fun e => ofClauses_eq_error_iff,
    fun r made => (ofClauses_eq_ok_iff.1 made).2, fun clauses' within within' same => ?_⟩
  obtain ⟨r, made⟩ := (exists_iff clauses).2 within
  obtain ⟨r', made'⟩ := (exists_iff clauses').2 within'
  have realises := (ofClauses_eq_ok_iff.1 made).2
  have realises' := (ofClauses_eq_ok_iff.1 made').2
  have equal : Stride.chosen (clauses.flatMap Clause.strides) =
      Stride.chosen (clauses'.flatMap Clause.strides) :=
    funext fun f => funext fun v => propext (same f v)
  rw [made, made', realises.unique (equal ▸ realises')]

/-- Every fifteenth day at nine, from the first day on: as a range up to the last day, and with its
days listed after the hour and one of them twice. -/
theorem ofClauses_fifteenthDays :
    ofClauses [.range .day 1 (-1) 15, .values .hour [9]] =
      ofClauses [.values .hour [9], .values .day [31, 16], .range .day 1 15 0,
        .values .day [16]] := by
  refine (realises_ofClauses _).2.2.2 _ (by decide) (by decide) fun f v => ?_
  have days : Stride.Holds ⟨1, Field.day.greatest, Int.toNat 15⟩ v ↔ v = 1 ∨ v = 16 ∨ v = 31 := by
    show (1 : Int) ≤ v ∧ (v : Int) ≤ 31 ∧ (15 : Int) ∣ v - 1 ↔ _
    omega
  simp only [Stride.chosen, Clause.strides, List.flatMap_cons, List.flatMap_nil, List.map_cons,
    List.map_nil, List.append_nil, List.cons_append, List.nil_append, Int.reduceLE, Int.reduceLT,
    if_true, if_false, List.mem_cons, List.not_mem_nil, or_false, exists_eq_or_imp, exists_eq_left,
    Stride.holds_single, days]
  grind

end Rule

end Recurrence
