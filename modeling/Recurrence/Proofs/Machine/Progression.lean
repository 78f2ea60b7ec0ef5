import Recurrence.Proofs.Machine.Field

/-!
# Progressions

A set of equally distant numbers is made in three ways, by one bit, by two masks or by a walk, and
each of them comes in two directions: every number at its own position, or at its distance from a
last one. The walk is a loop whose counter lives in a word of 32 bits. That it ends is told by a
relation which has a result only for loops that do (`WalksTo`), so that no bound on the number of
turns is part of it.

All three ways give the one progression that the bounds and the step stand for, and the second
direction is the mirror image of the first (`isProgression_and_isMirror`).
-/

namespace Recurrence.Machine

/-- A walk from a counter and a set comes to its end with a result: it goes round, each operation
within its domain, until the counter has passed `high`. -/
inductive WalksTo (slot : Nat → Checked Nat) (high step : Nat) :
    Nat → BitSet 64 → BitSet 64 → Prop
  | stop {i : Nat} {set : BitSet 64} : high < i → WalksTo slot high step i set set
  | turn {i place next : Nat} {set mark result : BitSet 64} : i ≤ high → slot i = .ok place →
      bit place = .ok mark → sum 32 i step = .ok next →
      WalksTo slot high step next (set ||| mark) result → WalksTo slot high step i set result

/-- The set that two bounds and a step stand for: the lower bound alone without a step, otherwise
what lies a number of steps behind it, up to the upper bound. -/
def IsProgression (low high step : Nat) (set : BitSet 64) : Prop :=
  ∀ i, set.getLsbD i = true ↔
    step = 0 ∧ i = low ∨ 1 ≤ step ∧ low ≤ i ∧ i ≤ high ∧ step ∣ i - low

/-- One set holds the distances from `top` of the members of another. -/
def IsMirror (top : Nat) (set mirror : BitSet 64) : Prop :=
  ∀ j, mirror.getLsbD j = true ↔ j ≤ top ∧ set.getLsbD (top - j) = true

section Walks

variable {slot : Nat → Checked Nat} {low high step : Nat}

/-- The walk gives a result just when its loop ends with it. -/
theorem walk_eq_ok_iff (positive : 0 < step) {i : Nat} {set result : BitSet 64} :
    walk slot high step positive i set = .ok result ↔ WalksTo slot high step i set result := by
  constructor
  · fun_induction walk slot high step positive i set generalizing result with
    | case1 i set inside ih =>
      intro h
      obtain ⟨place, placed, h⟩ := Except.bind_eq_ok_iff.1 h
      obtain ⟨mark, marked, h⟩ := Except.bind_eq_ok_iff.1 h
      obtain ⟨_, room, h⟩ := Except.bind_eq_ok_iff.1 h
      exact .turn inside placed marked (sum_eq (require_eq_ok_iff.1 room)) (ih mark h)
    | case2 i set past =>
      intro h
      cases h
      exact .stop (Nat.lt_of_not_le past)
  · intro h
    induction h with
    | stop past =>
      rw [walk, if_neg (Nat.not_le.2 past)]
      rfl
    | turn inside placed marked next _ ih =>
      obtain ⟨room, rfl⟩ := sum_eq_ok_iff.1 next
      rw [walk, if_pos inside, placed, ok_bind, marked, ok_bind, require_eq room, ok_bind]
      exact ih

/-- A loop that can do all its operations ends, and only with the set of what it has come to. -/
theorem walksTo_iff {slot' : Nat → Nat} {result : BitSet 64}
    (slots : ∀ i, low ≤ i → i ≤ high → slot i = .ok (slot' i) ∧ slot' i < 64)
    (room : high + step < 2 ^ 32) (positive : 0 < step) :
    WalksTo slot high step low 0 result ↔
      result = BitSet.ofList slot' (BitSet.ticks low high step) := by
  have ends : walk slot high step positive low 0 =
      .ok (BitSet.ofList slot' (BitSet.ticks low high step)) :=
    walk_eq slots room (Nat.le_refl low) 0
  rw [← walk_eq_ok_iff positive, ends, Except.ok.injEq, eq_comm]

end Walks

section Progressions

variable {low high step top : Nat}

theorem isProgression_progression (hle : low ≤ high) (h : high < 64) :
    IsProgression low high step (BitSet.progression low high step) := by
  intro i
  rw [BitSet.getLsbD_progression hle h]
  cases step with
  | zero =>
    rw [Nat.zero_dvd]
    omega
  | succ step => simp

theorem isMirror_progressionFromEnd (hle : low ≤ high) (htop : high ≤ top) (h : top < 64) :
    IsMirror top (BitSet.progression low high step)
      (BitSet.progressionFromEnd low high step top) := by
  intro j
  rw [BitSet.getLsbD_progressionFromEnd hle htop h, BitSet.getLsbD_progression hle (by omega)]

/-- **Three ways to one progression, in both directions.** For bounds that leave room for the masks
and a step that leaves room for the counter, no operation traps and the set is the one that bounds
and step stand for. The loop, also where masks are taken instead of it, ends and comes to the same
set. Made from its end the set is the mirror image, and so is what the loop that marks distances
comes to. -/
theorem isProgression_and_isMirror (hle : low ≤ high) (hhigh : high ≤ 62)
    (room : high + step < 2 ^ 32) :
    progression low high step = .ok (.progression low high step) ∧
      IsProgression low high step (.progression low high step) ∧
      (0 < step → ∀ result, WalksTo .ok high step low 0 result ↔
        result = .progression low high step) ∧
      ∀ top, high ≤ top → top ≤ 62 →
        progressionFromEnd low high step top = .ok (.progressionFromEnd low high step top) ∧
          IsMirror top (.progression low high step) (.progressionFromEnd low high step top) ∧
          (0 < step → ∀ result, WalksTo (difference top) high step low 0 result ↔
            result = .progressionFromEnd low high step top) := by
  have small : high < 63 := by omega
  refine ⟨progression_eq hle small room, isProgression_progression hle (by omega), ?_, ?_⟩
  · intro positive result
    rw [← BitSet.ofList_ticks hle (by omega) positive]
    exact walksTo_iff (fun i _ inside => ⟨rfl, Nat.lt_of_le_of_lt inside (by omega)⟩) room positive
  · intro top htop hlast
    refine ⟨progressionFromEnd_eq hle htop (by omega) room,
      isMirror_progressionFromEnd hle htop (by omega), ?_⟩
    intro positive result
    rw [← BitSet.ofList_ticks_fromEnd hle htop (by omega) positive]
    exact walksTo_iff (fun i _ inside => ⟨difference_eq (by omega), by omega⟩) room positive

/-- Every third number from 2 up to the last one for which there is room; from the end, that one
comes first. -/
theorem isProgression_everyThird :
    (2 ≤ 62 ∧ 62 ≤ 62 ∧ 62 + 3 < 2 ^ 32) ∧
      progression 2 62 3 = .ok 0x4924924924924924 ∧
      IsProgression 2 62 3 0x4924924924924924 ∧
      WalksTo .ok 62 3 2 0 0x4924924924924924 ∧
      progressionFromEnd 2 62 3 62 = .ok 0x1249249249249249 ∧
      IsMirror 62 0x4924924924924924 0x1249249249249249 ∧
      WalksTo (difference 62) 62 3 2 0 0x1249249249249249 := by
  have marks : (BitSet.progression 2 62 3 : BitSet 64) = 0x4924924924924924 := by decide
  have mirrored : (BitSet.progressionFromEnd 2 62 3 62 : BitSet 64) = 0x1249249249249249 := by
    decide
  obtain ⟨given, isProgression, walks, fromEnd⟩ :=
    @isProgression_and_isMirror 2 62 3 (by decide) (by decide) (by decide)
  obtain ⟨given', isMirror, walks'⟩ := fromEnd 62 (by decide) (by decide)
  rw [marks] at given isProgression walks isMirror
  rw [mirrored] at given' isMirror walks'
  exact ⟨by decide, given, isProgression, (walks (by decide) _).2 rfl, given', isMirror,
    (walks' (by decide) _).2 rfl⟩

end Progressions

end Recurrence.Machine
