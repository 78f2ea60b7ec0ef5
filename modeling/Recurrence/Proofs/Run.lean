import Mathlib.Data.List.Nodup
import Mathlib.Data.List.Pairwise
import Mathlib.Data.List.Perm.Subperm
import Recurrence.Proofs.BitSet

/-!
# Shortest runs

Many lists of runs have the same numbers together: a run can be cut in two, written twice, or moved
to another place. Among all of them, runs that leave a number out between each two are the shortest
list (`AreApart.length_le`), and the only one of its length save for the order of its members
(`AreApart.perm`). Grouping ascending numbers gives such runs, so that it neither splits nor joins
(`isShortest_group`).
-/

namespace Recurrence.Run

attribute [ext] Run

instance : Membership Nat Run := ⟨fun r v => r.first ≤ v ∧ v ≤ r.last⟩

theorem mem_iff {r : Run} {v : Nat} : v ∈ r ↔ r.first ≤ v ∧ v ≤ r.last := Iff.rfl

theorem IsProper.first_mem {r : Run} (h : r.IsProper) : r.first ∈ r := ⟨Nat.le_refl _, h⟩

theorem IsProper.last_mem {r : Run} (h : r.IsProper) : r.last ∈ r := ⟨h, Nat.le_refl _⟩

/-- A number is in one of some runs. -/
def Covers (rs : List Run) (v : Nat) : Prop := ∃ r ∈ rs, v ∈ r

/-- Proper runs in ascending order that leave a number out between each two. -/
structure AreApart (rs : List Run) : Prop where
  proper : ∀ r ∈ rs, r.IsProper
  pairwise : rs.Pairwise fun r s => r.last + 2 ≤ s.first

/-- Runs that together have just the numbers that are told, and the shortest list that does: any
other one is longer, or has the same runs. -/
structure IsShortest (rs : List Run) (values : Nat → Prop) : Prop where
  covers : ∀ v, Covers rs v ↔ values v
  apart : AreApart rs
  length_le : ∀ other : List Run, (∀ v, Covers other v ↔ values v) → rs.length ≤ other.length
  perm : ∀ other : List Run, (∀ v, Covers other v ↔ values v) → other.length = rs.length →
    other.Perm rs
  eq_of_ascending : ∀ other : List Run, (∀ v, Covers other v ↔ values v) →
    other.length = rs.length → other.Pairwise (fun r s => r.first ≤ s.first) → other = rs

/-! ## Runs that are apart -/

namespace AreApart

variable {rs other : List Run} {r s o : Run} {v : Nat}

theorem eq_or_apart (h : AreApart rs) (hr : r ∈ rs) (hs : s ∈ rs) :
    r = s ∨ r.last + 2 ≤ s.first ∨ s.last + 2 ≤ r.first := by
  have : Std.Symm fun r s : Run => r.last + 2 ≤ s.first ∨ s.last + 2 ≤ r.first :=
    ⟨fun _ _ => Or.symm⟩
  by_cases same : r = s
  · exact .inl same
  · have either : rs.Pairwise fun r s => r.last + 2 ≤ s.first ∨ s.last + 2 ≤ r.first :=
      h.pairwise.imp Or.inl
    exact .inr (either.forall hr hs same)

theorem eq_of_mem (h : AreApart rs) (hr : r ∈ rs) (hs : s ∈ rs) (hvr : v ∈ r) (hvs : v ∈ s) :
    r = s := by
  rw [mem_iff] at hvr hvs
  rcases h.eq_or_apart hr hs with same | before | behind
  · exact same
  · omega
  · omega

theorem nodup (h : AreApart rs) : rs.Nodup := by
  refine h.pairwise.imp_of_mem fun {r s} hr _ before => ?_
  rintro rfl
  have proper : r.first ≤ r.last := h.proper r hr
  omega

/-- A run whose numbers are all covered lies within each run that it touches: the numbers next to
that run are not covered. -/
theorem within (h : AreApart rs) (hr : r ∈ rs) (covered : ∀ v ∈ o, Covers rs v) (hvr : v ∈ r)
    (hvo : v ∈ o) : r.first ≤ o.first ∧ o.last ≤ r.last := by
  rw [mem_iff] at hvr hvo
  constructor
  · by_contra starts
    obtain ⟨s, hs, hv⟩ := covered (r.first - 1) (mem_iff.2 (by omega))
    rw [mem_iff] at hv
    rcases h.eq_or_apart hr hs with rfl | before | behind
    · omega
    · omega
    · omega
  · by_contra ends
    obtain ⟨s, hs, hv⟩ := covered (r.last + 1) (mem_iff.2 (by omega))
    rw [mem_iff] at hv
    rcases h.eq_or_apart hr hs with rfl | before | behind
    · omega
    · omega
    · omega

/-- Each of the runs has a part of its own in any other list that covers the same numbers. -/
theorem exists_parts (h : AreApart rs) (same : ∀ v, Covers other v ↔ Covers rs v) :
    ∃ part : Run → Run, (∀ r ∈ rs, r.first ∈ part r ∧ r.first ≤ (part r).first ∧
      (part r).last ≤ r.last) ∧ (rs.map part).Subperm other := by
  have begins : ∀ r : Run, ∃ o, r ∈ rs → o ∈ other ∧ r.first ∈ o := by
    intro r
    by_cases hr : r ∈ rs
    · obtain ⟨o, ho, hv⟩ := (same r.first).2 ⟨r, hr, (h.proper r hr).first_mem⟩
      exact ⟨o, fun _ => ⟨ho, hv⟩⟩
    · exact ⟨r, fun hr' => absurd hr' hr⟩
  choose part hpart using begins
  have inside : ∀ r ∈ rs, r.first ≤ (part r).first ∧ (part r).last ≤ r.last := by
    intro r hr
    obtain ⟨ho, hv⟩ := hpart r hr
    exact h.within hr (fun v hv => (same v).1 ⟨part r, ho, hv⟩) (h.proper r hr).first_mem hv
  have apart : ∀ r ∈ rs, ∀ s ∈ rs, part r = part s → r = s := by
    intro r hr s hs shared
    have here := (hpart s hs).2
    have bounds := inside r hr
    rw [← shared, mem_iff] at here
    exact h.eq_of_mem hr hs (mem_iff.2 (by omega)) (h.proper s hs).first_mem
  refine ⟨part, fun r hr => ⟨(hpart r hr).2, inside r hr⟩,
    List.subperm_of_subset (h.nodup.map_on apart) ?_⟩
  intro o ho
  obtain ⟨r, hr, rfl⟩ := List.mem_map.1 ho
  exact (hpart r hr).1

theorem length_le (h : AreApart rs) (same : ∀ v, Covers other v ↔ Covers rs v) :
    rs.length ≤ other.length := by
  obtain ⟨part, _, parts⟩ := h.exists_parts same
  simpa using parts.length_le

/-- A list that is as short has no run to spare for a second part, so each part is all of its
run. -/
theorem perm (h : AreApart rs) (same : ∀ v, Covers other v ↔ Covers rs v)
    (short : other.length = rs.length) : other.Perm rs := by
  obtain ⟨part, inside, parts⟩ := h.exists_parts same
  have all : (rs.map part).Perm other := parts.perm_of_length_le (by simp [short])
  have whole : ∀ r ∈ rs, part r = r := by
    intro r hr
    obtain ⟨begins, hfirst, hlast⟩ := inside r hr
    have ends : r.last ∈ r := (h.proper r hr).last_mem
    obtain ⟨o, ho, hv⟩ := (same r.last).2 ⟨r, hr, ends⟩
    obtain ⟨s, hs, rfl⟩ := List.mem_map.1 (all.mem_iff.2 ho)
    have bounds := (inside s hs).2
    rw [mem_iff] at hv begins
    obtain rfl : r = s := h.eq_of_mem hr hs ends (mem_iff.2 (by omega))
    exact Run.ext (by omega) (by omega)
  have unchanged : rs.map part = rs := (List.map_congr_left whole).trans (List.map_id' rs)
  rw [unchanged] at all
  exact all.symm

theorem eq_of_ascending (h : AreApart rs) (same : ∀ v, Covers other v ↔ Covers rs v)
    (short : other.length = rs.length)
    (ascending : other.Pairwise fun r s => r.first ≤ s.first) : other = rs := by
  have all := h.perm same short
  have ascending' : rs.Pairwise fun r s => r.first ≤ s.first :=
    h.pairwise.imp_of_mem fun {r s} hr _ before => by
      have proper : r.first ≤ r.last := h.proper r hr
      omega
  refine all.eq_of_pairwise (fun r s hr hs before behind => ?_) ascending ascending'
  have hr := all.mem_iff.1 hr
  have begins : r.first ∈ r := (h.proper r hr).first_mem
  have proper : s.first ≤ s.last := h.proper s hs
  exact h.eq_of_mem hr hs begins (mem_iff.2 (by omega))

theorem isShortest (h : AreApart rs) : IsShortest rs (Covers rs) where
  covers _ := Iff.rfl
  apart := h
  length_le _ := h.length_le
  perm _ := h.perm
  eq_of_ascending _ := h.eq_of_ascending

end AreApart

/-! ## Grouping -/

theorem areApart_cons {v : Nat} {rs : List Run} (h : AreApart rs) (lower : ∀ r ∈ rs, v < r.first) :
    AreApart (cons v rs) := by
  refine ⟨isProper_cons h.proper, ?_⟩
  match rs with
  | [] => exact List.pairwise_singleton _ _
  | r :: rs =>
    obtain ⟨after, tail⟩ := List.pairwise_cons.1 h.pairwise
    have proper : r.first ≤ r.last := h.proper r List.mem_cons_self
    have lower : v < r.first := lower r List.mem_cons_self
    rw [cons]
    split
    · exact List.pairwise_cons.2 ⟨after, tail⟩
    · rename_i apart
      refine List.pairwise_cons.2 ⟨fun s hs => ?_, h.pairwise⟩
      rcases List.mem_cons.1 hs with rfl | hs
      · show v + 2 ≤ s.first
        omega
      · have := after s hs
        show v + 2 ≤ s.first
        omega

theorem first_mem_of_mem_group {values : List Nat} {r : Run} (h : r ∈ group values) :
    r.first ∈ values :=
  exists_mem_group.2 ⟨r, h, (isProper_group values r h).first_mem⟩

theorem areApart_group {values : List Nat} (h : values.Pairwise (· < ·)) :
    AreApart (group values) := by
  induction values with
  | nil => exact ⟨nofun, .nil⟩
  | cons v values ih =>
    obtain ⟨lower, ascending⟩ := List.pairwise_cons.1 h
    exact areApart_cons (ih ascending) fun r hr => lower r.first (first_mem_of_mem_group hr)

theorem exists_group_cons (v : Nat) (values : List Nat) :
    ∃ last rs, group (v :: values) = ⟨v, last⟩ :: rs := by
  show ∃ last rs, cons v (group values) = ⟨v, last⟩ :: rs
  match group values with
  | [] => exact ⟨v, [], rfl⟩
  | r :: rs =>
    rw [cons]
    split
    · exact ⟨r.last, rs, rfl⟩
    · exact ⟨v, r :: rs, rfl⟩

/-- A number joins the run that its successor begins. -/
theorem group_cons_succ {v last : Nat} {values : List Nat} {rs : List Run}
    (h : group ((v + 1) :: values) = ⟨v + 1, last⟩ :: rs) :
    group (v :: (v + 1) :: values) = ⟨v, last⟩ :: rs := by
  show cons v (group ((v + 1) :: values)) = ⟨v, last⟩ :: rs
  rw [h, cons, if_pos rfl]

/-- A number that its successor does not follow is a run of its own. -/
theorem group_cons_of_ne {v : Nat} {values : List Nat} (h : values.head? ≠ some (v + 1)) :
    group (v :: values) = ⟨v, v⟩ :: group values := by
  cases values with
  | nil => rfl
  | cons w values =>
    obtain ⟨last, rs, begins⟩ := exists_group_cons w values
    have apart : w ≠ v + 1 := fun next => h (congrArg some next)
    show cons v (group (w :: values)) = _
    rw [begins, cons, if_neg apart]

/-- The numbers of a first run and those behind it. -/
theorem mem_cons_iff_of_group_eq {v last i : Nat} {values rest : List Nat}
    (h : group (v :: values) = ⟨v, last⟩ :: group rest) :
    i ∈ v :: values ↔ v ≤ i ∧ i ≤ last ∨ i ∈ rest := by
  rw [exists_mem_group, h]
  simp only [List.mem_cons, exists_eq_or_imp, ← exists_mem_group]

/-- A first run fits under a bound as soon as its last number does. -/
theorem forall_add_lt_iff_of_group_eq {v last offset bound : Nat} {values rest : List Nat}
    (h : group (v :: values) = ⟨v, last⟩ :: group rest) :
    (∀ i ∈ v :: values, i + offset < bound) ↔
      last + offset < bound ∧ ∀ i ∈ rest, i + offset < bound := by
  have proper : v ≤ last := isProper_group (v :: values) ⟨v, last⟩ (h ▸ List.mem_cons_self)
  simp only [mem_cons_iff_of_group_eq h, or_imp, forall_and]
  refine and_congr_left fun _ => ⟨fun all => all last ⟨proper, Nat.le_refl _⟩, ?_⟩
  rintro room i ⟨_, upTo⟩
  omega

/-- A run that stands for numbers further up. -/
def shift (offset : Nat) (r : Run) : Run := ⟨r.first + offset, r.last + offset⟩

theorem group_map_add (offset : Nat) (values : List Nat) :
    group (values.map (· + offset)) = (group values).map (shift offset) := by
  induction values with
  | nil => rfl
  | cons v values ih =>
    show cons (v + offset) (group (values.map (· + offset))) = (cons v (group values)).map _
    rw [ih]
    match group values with
    | [] => rfl
    | r :: rs =>
      have joins : r.first + offset = v + offset + 1 ↔ r.first = v + 1 := by omega
      rw [List.map_cons, cons, cons]
      simp only [shift, joins]
      split
      · rfl
      · rfl

/-- Grouping neither splits nor joins: ascending numbers have no shorter list of runs, and no other
one that is as short. -/
theorem isShortest_group {values : List Nat} (h : values.Pairwise (· < ·)) :
    IsShortest (group values) (· ∈ values) := by
  have covers : Covers (group values) = (· ∈ values) := funext fun v => propext exists_mem_group.symm
  rw [← covers]
  exact (areApart_group h).isShortest

end Recurrence.Run
