import Recurrence.Proofs.Expression.RoundTrip
import Recurrence.Proofs.Rule.Clause

/-!
# Well-formed rules can be made

A rule that is made is well-formed, whichever way it is made. Conversely every well-formed rule is
made by the clauses that list its values (`Rule.ofClauses_clauses`), and by reading its canonical
expression (`Rule.read_canonical`). So the well-formed rules are all that there are, and the same
ones for each of the ways (`Rule.isWellFormed_iff_made`).
-/

namespace Recurrence.Rule

variable {r : Rule} {f : Field}

/-- Clauses that list what was chosen for each field of a rule. -/
def clauses (r : Rule) : List Clause :=
  Field.all.map fun f => .values f (f.decode (r.selection f))

theorem mem_strides_clauses {s : Stride} :
    (f, s) ∈ r.clauses.flatMap Clause.strides ↔
      ∃ v ∈ f.decode (r.selection f), s = ⟨(v : Nat), (v : Nat), 0⟩ := by
  rw [List.mem_flatMap]
  constructor
  · rintro ⟨c, member, asked⟩
    obtain ⟨g, _, rfl⟩ := List.mem_map.1 member
    obtain ⟨v, listed, same⟩ := List.mem_map.1 asked
    cases same
    exact ⟨v, listed, rfl⟩
  · rintro ⟨v, listed, rfl⟩
    have every : f ∈ Field.all := by cases f <;> decide
    exact ⟨_, List.mem_map_of_mem every, List.mem_map_of_mem listed⟩

theorem chosen_clauses_iff {v : Nat} :
    Stride.chosen (r.clauses.flatMap Clause.strides) f v ↔ v ∈ f.decode (r.selection f) := by
  unfold Stride.chosen
  constructor
  · rintro ⟨⟨f, s⟩, member, rfl, holds⟩
    obtain ⟨w, listed, rfl⟩ := mem_strides_clauses.1 member
    rwa [Int.ofNat_inj.1 (Stride.holds_single.1 holds)]
  · intro listed
    exact ⟨(f, ⟨v, v, 0⟩), mem_strides_clauses.2 ⟨v, listed, rfl⟩, rfl, Stride.holds_single.2 rfl⟩

section

variable (h : r.IsWellFormed)
include h

theorem isWithin_strides_clauses :
    ∀ p ∈ r.clauses.flatMap Clause.strides, p.2.IsWithin p.1 := by
  rintro ⟨f, s⟩ member
  obtain ⟨v, listed, rfl⟩ := mem_strides_clauses.1 member
  obtain ⟨least, greatest, _⟩ := (Field.mem_decode (isBounded_selection h f)).1 listed
  exact ⟨Int.ofNat_le.2 least, Int.le_refl _, Int.ofNat_le.2 greatest, .inr rfl⟩

/-- The listed values have just the places that the selection of the rule holds. -/
theorem adds_clauses :
    Selection.empty.Adds (Stride.chosen (r.clauses.flatMap Clause.strides)) r.selection := by
  have bounded := isBounded_selection h
  intro f i
  simp only [Selection.empty, BitSet.getLsbD_zero, Bool.false_eq_true, false_or,
    chosen_clauses_iff, Field.mem_decode (bounded f)]
  constructor
  · intro member
    obtain ⟨v, least, greatest, rfl⟩ := Field.exists_slot (bounded f i member)
    exact ⟨v, ⟨least, greatest, member⟩, rfl⟩
  · rintro ⟨v, ⟨_, _, member⟩, rfl⟩
    exact member

/-- The clauses that list the values of a rule make the rule. -/
theorem ofClauses_clauses : ofClauses r.clauses = .ok r := by
  have within := isWithin_strides_clauses h
  have realises := Selection.realises_toRule (adds_clauses h) (Stride.isBounded_chosen within)
  rw [toRule_selection h] at realises
  exact ofClauses_eq_ok_iff.2 ⟨within, realises⟩

end

/-- **The rules that can be made are the well-formed ones.** Clauses make no others, nor does an
expression under any options, nor the text that a rule is stored as, which is read with the default
options; and each of the three ways makes all of them. -/
theorem isWellFormed_iff_made (r : Rule) :
    ((∃ clauses, ofClauses clauses = .ok r) ↔ r.IsWellFormed) ∧
      ((∃ (o : Expression.Options) (text : String), Expression.read o text = .ok r) ↔
        r.IsWellFormed) ∧
      ((∃ text, Expression.read {} text = .ok r) ↔ r.IsWellFormed) := by
  have stored (h : r.IsWellFormed) : Expression.read {} r.canonical = .ok r :=
    read_canonical h (layout?_default r)
  refine ⟨⟨fun made => ?_, fun h => ⟨r.clauses, ofClauses_clauses h⟩⟩,
    ⟨fun made => ?_, fun h => ⟨{}, r.canonical, stored h⟩⟩,
    ⟨fun made => ?_, fun h => ⟨r.canonical, stored h⟩⟩⟩
  · exact IsConstructible.isWellFormed (.inl made)
  · exact IsConstructible.isWellFormed (.inr made)
  · exact IsConstructible.isWellFormed (.inr ⟨{}, made⟩)

end Recurrence.Rule
