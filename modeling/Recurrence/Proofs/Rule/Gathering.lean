import Recurrence.Proofs.Field.Stride
import Recurrence.Proofs.Rule.Selection

/-!
# Gathering choices

What is chosen for a rule are some values of each field (`Choices`), however they are written down,
and a selection keeps their places (`Selection.Adds`). A way to gather choices from some input is
described by the inputs that it takes and by the values that it then adds (`Gathers`); going through
a list keeps such a description (`Gathers.foldlM`), so that ways to gather are described from the
inside out.
-/

namespace Recurrence

/-- The values that are chosen for each field. -/
abbrev Choices := Field → Nat → Prop

namespace Selection

variable {s s' s'' : Selection} {c d : Choices} {f : Field}

/-- One selection holds, besides what another one does, the places of some choices. -/
def Adds (s : Selection) (c : Choices) (s' : Selection) : Prop :=
  ∀ f i, (s' f).getLsbD i = true ↔ (s f).getLsbD i = true ∨ ∃ v, c f v ∧ f.slot v = i

namespace Adds

theorem unique (h : s.Adds c s') (h' : s.Adds c s'') : s' = s'' :=
  ext_getLsbD fun f i => (h f i).trans (h' f i).symm

theorem congr (h : s.Adds c s') (same : ∀ f v, c f v ↔ d f v) : s.Adds d s' := by
  have equal : c = d := funext fun f => funext fun v => propext (same f v)
  rwa [← equal]

theorem nothing (s : Selection) : s.Adds (fun _ _ => False) s := by
  intro f i
  simp

theorem trans (h : s.Adds c s') (h' : s'.Adds d s'') :
    s.Adds (fun f v => c f v ∨ d f v) s'' := by
  intro f i
  rw [h' f i, h f i, or_assoc]
  simp only [or_and_right, exists_or]

end Adds

theorem adds_insert_zero (s : Selection) (f : Field) :
    s.Adds (fun _ _ => False) (s.insert f 0) := by
  intro g i
  rw [getLsbD_insert, BitSet.getLsbD_zero]
  simp

/-- The set of a stride adds the stride's values to a field. -/
theorem adds_insert {low high : Int} {step : Nat} {set : BitSet 64}
    (made : f.rangeSet low high step = .ok set) (s : Selection) :
    s.Adds (fun g v => g = f ∧ Stride.Holds ⟨low, high, step⟩ v) (s.insert f set) := by
  have within := Field.exists_rangeSet_iff.1 ⟨set, made⟩
  intro g i
  rw [getLsbD_insert]
  apply or_congr_right
  constructor
  · rintro ⟨rfl, member, _⟩
    obtain ⟨v, holds, same⟩ := (Field.getLsbD_rangeSet made).1 member
    exact ⟨v, ⟨rfl, holds⟩, same⟩
  · rintro ⟨v, ⟨rfl, holds⟩, rfl⟩
    obtain ⟨least, greatest⟩ := Stride.bounds_of_holds within holds
    exact ⟨rfl, (Field.getLsbD_rangeSet made).2 ⟨v, holds, rfl⟩, Field.slot_lt least greatest⟩

end Selection

/-- A way to add to a selection what some input chooses: it takes the inputs that `ok` tells and no
others, and adds to the selection what `chosen` tells. -/
structure Gathers {α ε : Type} (step : Selection → α → Except ε Selection) (ok : α → Prop)
    (chosen : α → Choices) : Prop where
  accepts : ∀ {a}, ok a → ∀ s, ∃ s', step s a = .ok s'
  adds : ∀ {s a s'}, step s a = .ok s' → ok a ∧ s.Adds (chosen a) s'

namespace Gathers

variable {α ε : Type} {step : Selection → α → Except ε Selection} {ok : α → Prop}
  {chosen : α → Choices} {s s' : Selection} {a : α}

/-- Going through a list gathers what its members choose, if each of them is taken. -/
theorem foldlM (h : Gathers step ok chosen) :
    Gathers (fun s (l : List α) => l.foldlM step s) (fun l => ∀ a ∈ l, ok a)
      (fun l f v => ∃ a ∈ l, chosen a f v) where
  accepts {l} good s := by
    induction l generalizing s with
    | nil => exact ⟨s, rfl⟩
    | cons a l ih =>
      obtain ⟨s', first⟩ := h.accepts (good a List.mem_cons_self) s
      obtain ⟨s'', rest⟩ := ih (fun b member => good b (List.mem_cons_of_mem a member)) s'
      refine ⟨s'', ?_⟩
      rw [List.foldlM_cons, first]
      exact rest
  adds {s l s'} gathered := by
    induction l generalizing s with
    | nil =>
      obtain rfl : s = s' := Except.ok.inj gathered
      refine ⟨fun a member => (List.not_mem_nil member).elim, ?_⟩
      refine (Selection.Adds.nothing s).congr fun f v => ?_
      simp only [List.not_mem_nil, false_and, exists_false]
    | cons a l ih =>
      rw [List.foldlM_cons, Except.bind_eq_ok_iff] at gathered
      obtain ⟨middle, first, rest⟩ := gathered
      obtain ⟨goodFirst, addsFirst⟩ := h.adds first
      obtain ⟨goodRest, addsRest⟩ := ih rest
      refine ⟨List.forall_mem_cons.2 ⟨goodFirst, goodRest⟩, ?_⟩
      refine (addsFirst.trans addsRest).congr fun f v => ?_
      simp only [List.mem_cons, exists_eq_or_imp]

/-- Going through a list fails for its first member that is not taken, when what a member fails for
does not depend on what was gathered before it. -/
theorem foldlM_eq_error_iff {fails : α → ε → Prop} {l : List α} {e : ε}
    (h : Gathers step ok chosen) (refused : ∀ {s a e}, step s a = .error e ↔ fails a e) :
    l.foldlM step s = .error e ↔
      ∃ before a after, l = before ++ a :: after ∧ (∀ b ∈ before, ok b) ∧ fails a e := by
  induction l generalizing s with
  | nil =>
    refine ⟨nofun, fun first => ?_⟩
    obtain ⟨before, a, after, split, _⟩ := first
    exact absurd split (List.append_ne_nil_of_right_ne_nil _ (List.cons_ne_nil _ _)).symm
  | cons a l ih =>
    rw [List.foldlM_cons, Except.bind_eq_error_iff]
    constructor
    · intro failed
      obtain failed | ⟨s', taken, failed⟩ := failed
      · exact ⟨[], a, l, rfl, fun b member => (List.not_mem_nil member).elim, refused.1 failed⟩
      · obtain ⟨before, b, after, rfl, good, failed⟩ := ih.1 failed
        refine ⟨a :: before, b, after, rfl, ?_, failed⟩
        exact List.forall_mem_cons.2 ⟨(h.adds taken).1, good⟩
    · intro first
      obtain ⟨before, b, after, split, good, failed⟩ := first
      cases before with
      | nil =>
        cases split
        exact .inl (refused.2 failed)
      | cons c before =>
        cases split
        obtain ⟨goodFirst, good⟩ := List.forall_mem_cons.1 good
        obtain ⟨s', taken⟩ := h.accepts goodFirst s
        exact .inr ⟨s', taken, ih.2 ⟨before, b, after, rfl, good, failed⟩⟩

end Gathers

end Recurrence
