import Mathlib.Data.List.Sort
import Recurrence.Proofs.Machine.Operation
import Recurrence.Proofs.Run

/-!
# Bits one after another

A word is read by a generator that takes its lowest bit off with each call, and its runs by another
one that is built on the first: it looks at the next bit before it takes it, and goes on while the
bits follow each other. What a generator gives is told by a relation (`Drains`) that has a list only
for generators that end.

The generators give the members and the runs of the set (`drains_nextBit_iff`,
`Peekable.drains_nextRun_iff`), and these runs are the shortest list (`drains_members_and_runs`).
-/

namespace Recurrence.Machine

/-! ## Generators -/

/-- Called again and again, a generator gives the items of a list and then its end, and the end once
more. -/
inductive Drains {σ α : Type} (next : σ → Checked (Option α × σ)) : σ → List α → Prop
  | ended {s s' : σ} : next s = .ok (none, s') → next s' = .ok (none, s') → Drains next s []
  | item {s s' : σ} {a : α} {l : List α} : next s = .ok (some a, s') → Drains next s' l →
      Drains next s (a :: l)

section

variable {σ α : Type} {next : σ → Checked (Option α × σ)} {s s' : σ} {a : α} {l : List α}

theorem drains_iff_of_none (h : next s = .ok (none, s')) (h' : next s' = .ok (none, s')) :
    Drains next s l ↔ l = [] := by
  constructor
  · intro drains
    cases drains with
    | ended => rfl
    | item given => cases h.symm.trans given
  · rintro rfl
    exact .ended h h'

theorem drains_iff_of_some (h : next s = .ok (some a, s')) :
    Drains next s l ↔ ∃ rest, Drains next s' rest ∧ l = a :: rest := by
  constructor
  · intro drains
    cases drains with
    | ended given => cases h.symm.trans given
    | item given rest =>
      cases h.symm.trans given
      exact ⟨_, rest, rfl⟩
  · rintro ⟨rest, drains, rfl⟩
    exact .item h drains

theorem not_drains_of_error {trap : Trap} (h : next s = .error trap) : ¬Drains next s l := by
  intro drains
  cases drains with
  | ended given => cases h.symm.trans given
  | item given => cases h.symm.trans given

end

/-! ## The lowest bit of a word -/

/-- The number of zeros below the lowest bit of a word. -/
def trailingZeros (set : BitSet 64) : Nat := set.ctz.toNat

section Lowest

variable {set : BitSet 64}

theorem getLsbD_trailingZeros (h : set ≠ 0) : set.getLsbD (trailingZeros set) = true :=
  BitVec.getLsbD_true_ctz_of_ne_zero h

theorem getLsbD_of_lt_trailingZeros {i : Nat} (h : i < trailingZeros set) :
    set.getLsbD i = false :=
  BitVec.getLsbD_false_of_lt_ctz h

theorem trailingZeros_le {i : Nat} (h : set.getLsbD i = true) : trailingZeros set ≤ i := by
  by_contra below
  rw [getLsbD_of_lt_trailingZeros (Nat.lt_of_not_le below)] at h
  cases h

theorem getLsbD_singleton_trailingZeros (h : set ≠ 0) (i : Nat) :
    (BitSet.singleton (trailingZeros set) : BitSet 64).getLsbD i = true ↔
      i = trailingZeros set := by
  have small := BitSet.lt_of_getLsbD (getLsbD_trailingZeros h)
  rw [BitSet.getLsbD_singleton, and_iff_right small, eq_comm]

theorem getLsbD_and_not_singleton (h : set ≠ 0) (i : Nat) :
    (set &&& ~~~BitSet.singleton (trailingZeros set)).getLsbD i = true ↔
      set.getLsbD i = true ∧ i ≠ trailingZeros set := by
  rw [BitVec.getLsbD_and, BitVec.getLsbD_not, Bool.and_eq_true, Bool.and_eq_true,
    Bool.not_eq_true', ← Bool.not_eq_true, getLsbD_singleton_trailingZeros h, decide_eq_true_eq]
  exact and_congr_right fun member => and_iff_right (BitSet.lt_of_getLsbD member)

/-- A word is its lowest bit and the bits above, which have no bit in common. -/
theorem exists_above (h : set ≠ 0) : ∃ above : BitSet 64,
    set = above + BitSet.singleton (trailingZeros set) ∧
      ∀ i, above.getLsbD i = true ↔ set.getLsbD i = true ∧ i ≠ trailingZeros set := by
  have getLsbD_above := getLsbD_and_not_singleton h
  have lowest := getLsbD_singleton_trailingZeros h
  refine ⟨set &&& ~~~BitSet.singleton (trailingZeros set), ?_, getLsbD_above⟩
  rw [BitVec.add_eq_or_of_and_eq_zero]
  · apply BitSet.ext_getLsbD
    intro i
    rw [BitVec.getLsbD_or, Bool.or_eq_true, getLsbD_above, lowest]
    by_cases here : i = trailingZeros set
    · simp only [here, getLsbD_trailingZeros h, or_true]
    · simp only [here, ne_eq, not_false_eq_true, and_true, or_false]
  · apply BitSet.eq_zero_iff.2
    intro i
    rw [Bool.eq_false_iff, BitVec.getLsbD_and, Ne, Bool.and_eq_true, getLsbD_above, lowest]
    exact fun common => common.1.2 common.2

/-- A borrow clears the lowest bit and runs through the zeros below it. -/
theorem getLsbD_sub_one (h : set ≠ 0) (i : Nat) : (set - 1).getLsbD i = true ↔
    i < trailingZeros set ∨ set.getLsbD i = true ∧ i ≠ trailingZeros set := by
  have small := BitSet.lt_of_getLsbD (getLsbD_trailingZeros h)
  obtain ⟨above, parts, getLsbD_above⟩ := exists_above h
  have borrowed : set - 1 = above + (BitSet.singleton (trailingZeros set) - 1) := by
    conv => lhs; rw [parts]
    rw [BitVec.sub_eq_add_neg, BitVec.sub_eq_add_neg, BitVec.add_assoc]
  rw [borrowed, BitVec.add_eq_or_of_and_eq_zero]
  · rw [BitVec.getLsbD_or, Bool.or_eq_true, getLsbD_above, getLsbD_bitsBelow small,
      decide_eq_true_eq, or_comm]
  · apply BitSet.eq_zero_iff.2
    intro j
    rw [Bool.eq_false_iff, BitVec.getLsbD_and, Ne, Bool.and_eq_true, getLsbD_above,
      getLsbD_bitsBelow small, decide_eq_true_eq]
    rintro ⟨⟨member, _⟩, below⟩
    exact Nat.not_lt.2 (trailingZeros_le member) below

/-- What is left of a word without its lowest bit. -/
theorem getLsbD_and_sub_one (h : set ≠ 0) (i : Nat) : (set &&& (set - 1)).getLsbD i = true ↔
    set.getLsbD i = true ∧ i ≠ trailingZeros set := by
  rw [BitVec.getLsbD_and, Bool.and_eq_true, getLsbD_sub_one h]
  constructor
  · rintro ⟨member, below | ⟨_, other⟩⟩
    · exact ⟨member, Nat.ne_of_lt below⟩
    · exact ⟨member, other⟩
  · rintro ⟨member, other⟩
    exact ⟨member, .inr ⟨member, other⟩⟩

theorem members_eq_cons (h : set ≠ 0) :
    set.members = trailingZeros set :: (set &&& (set - 1)).members := by
  refine List.Pairwise.eq_of_mem_iff (r := (· < ·)) (BitSet.pairwise_members set) ?_ fun i => ?_
  · refine List.pairwise_cons.2 ⟨fun i hi => ?_, BitSet.pairwise_members _⟩
    obtain ⟨member, other⟩ := (getLsbD_and_sub_one h i).1 (BitSet.mem_members.1 hi)
    exact Nat.lt_of_le_of_ne (trailingZeros_le member) other.symm
  · rw [List.mem_cons, BitSet.mem_members, BitSet.mem_members, getLsbD_and_sub_one h]
    constructor
    · intro member
      by_cases lowest : i = trailingZeros set
      · exact .inl lowest
      · exact .inr ⟨member, lowest⟩
    · rintro (rfl | ⟨member, _⟩)
      · exact getLsbD_trailingZeros h
      · exact member

theorem members_eq_nil_iff : set.members = [] ↔ set = 0 := by
  constructor
  · intro h
    by_contra some
    rw [members_eq_cons some] at h
    cases h
  · rintro rfl
    decide

end Lowest

/-! ## Members -/

/-- Takes the lowest bit off a word. -/
def nextBit (rest : BitSet 64) : Checked (Option Nat × BitSet 64) :=
  if rest = 0 then return (none, rest)
  else do
    require (rest ≠ 0) .difference
    return (some (trailingZeros rest), rest &&& (rest - 1))

/-- The first bit of a word that is not below `start`. -/
def nextFrom (set : BitSet 64) (start : Nat) : Checked (Option Nat) :=
  if 64 ≤ start then return none
  else do
    require (start < 64) .shift
    let rest := set &&& (BitVec.allOnes 64 <<< start)
    return if rest = 0 then none else some (trailingZeros rest)

section Members

variable {set : BitSet 64} {out : List Nat}

theorem nextBit_zero : nextBit 0 = .ok (none, 0) := rfl

/-- Each call gives the first member and leaves the others. -/
theorem exists_nextBit (rest : BitSet 64) :
    ∃ rest', nextBit rest = .ok (rest.members.head?, rest') ∧
      rest'.members = rest.members.tail := by
  by_cases empty : rest = 0
  · subst empty
    exact ⟨0, rfl, rfl⟩
  · refine ⟨rest &&& (rest - 1), ?_, ?_⟩
    · rw [nextBit, if_neg empty, require_eq empty, members_eq_cons empty]
      rfl
    · rw [members_eq_cons empty, List.tail_cons]

theorem drains_nextBit_iff : Drains nextBit set out ↔ out = set.members := by
  generalize members : set.members = l
  induction l generalizing set out with
  | nil =>
    rw [members_eq_nil_iff] at members
    subst members
    exact drains_iff_of_none nextBit_zero nextBit_zero
  | cons i l ih =>
    obtain ⟨rest, given, left⟩ := exists_nextBit set
    rw [members] at given left
    rw [drains_iff_of_some given]
    simp only [ih left, exists_eq_left]

theorem getLsbD_and_allOnes_shiftLeft (set : BitSet 64) (start i : Nat) :
    (set &&& (BitVec.allOnes 64 <<< start)).getLsbD i = true ↔
      start ≤ i ∧ set.getLsbD i = true := by
  rw [BitVec.getLsbD_and, BitVec.getLsbD_shiftLeft, BitVec.getLsbD_allOnes]
  simp only [Bool.and_eq_true, decide_eq_true_eq, Bool.not_eq_true', decide_eq_false_iff_not]
  constructor
  · rintro ⟨member, ⟨_, reached⟩, _⟩
    exact ⟨Nat.le_of_not_lt reached, member⟩
  · rintro ⟨reached, member⟩
    have small := BitSet.lt_of_getLsbD member
    exact ⟨member, ⟨small, Nat.not_lt.2 reached⟩, by omega⟩

theorem nextFrom_eq (set : BitSet 64) (start : Nat) : nextFrom set start = .ok (set.next? start) := by
  by_cases beyond : 64 ≤ start
  · have none : set.next? start = none :=
      BitSet.next?_eq_none_iff.2 fun j hj => BitVec.getLsbD_of_ge _ _ (Nat.le_trans beyond hj)
    rw [nextFrom, if_pos beyond, none]
    rfl
  rw [nextFrom, if_neg beyond, require_eq (Nat.lt_of_not_le beyond), ok_bind]
  refine congrArg Except.ok (Eq.symm ?_)
  have getLsbD_rest := getLsbD_and_allOnes_shiftLeft set start
  generalize set &&& (BitVec.allOnes 64 <<< start) = rest at getLsbD_rest ⊢
  by_cases empty : rest = 0
  · rw [if_pos empty, BitSet.next?_eq_none_iff]
    intro j reached
    rw [Bool.eq_false_iff]
    intro member
    have left := (getLsbD_rest j).2 ⟨reached, member⟩
    rw [empty, BitSet.getLsbD_zero] at left
    cases left
  · obtain ⟨reached, member⟩ := (getLsbD_rest _).1 (getLsbD_trailingZeros empty)
    rw [if_neg empty, BitSet.next?_eq_some_iff]
    refine ⟨reached, member, fun j reached below => ?_⟩
    rw [Bool.eq_false_iff]
    intro member
    exact Nat.not_lt.2 (trailingZeros_le ((getLsbD_rest j).2 ⟨reached, member⟩)) below

/-- The next member is found among the members. -/
theorem find?_members (set : BitSet 64) (start : Nat) :
    set.members.find? (start ≤ ·) = set.next? start := by
  cases found : set.next? start with
  | none =>
    refine List.find?_eq_none.2 fun i member reached => ?_
    rw [BitSet.mem_members, BitSet.next?_eq_none_iff.1 found i (by simpa using reached)] at member
    cases member
  | some i =>
    obtain ⟨reached, member, least⟩ := BitSet.next?_eq_some_iff.1 found
    obtain ⟨before, behind, split⟩ := List.append_of_mem (BitSet.mem_members.2 member)
    have ascending := BitSet.pairwise_members set
    rw [split] at ascending
    refine List.find?_eq_some_iff_append.2 ⟨by simpa using reached, before, behind, split, ?_⟩
    intro j hj
    have earlier : j < i := (List.pairwise_append.1 ascending).2.2 j hj i List.mem_cons_self
    have member : set.getLsbD j = true := BitSet.mem_members.1 (by simp [split, hj])
    simp only [Bool.not_eq_true', decide_eq_false_iff_not]
    intro reached
    rw [least j reached earlier] at member
    cases member

end Members

/-! ## Runs -/

/-- A generator of bits of which one has been looked at, or the end, or none yet. -/
structure Peekable where
  seen : Option (Option Nat)
  rest : BitSet 64

namespace Peekable

def next (p : Peekable) : Checked (Option Nat × Peekable) :=
  match p.seen with
  | some item => return (item, ⟨none, p.rest⟩)
  | none => do
    let (item, rest) ← nextBit p.rest
    return (item, ⟨none, rest⟩)

def peek (p : Peekable) : Checked (Option Nat × Peekable) :=
  match p.seen with
  | some item => return (item, p)
  | none => do
    let (item, rest) ← nextBit p.rest
    return (item, ⟨some item, rest⟩)

/-- Goes on from a number as long as the next bit follows it. -/
def extend (last : Nat) (p : Peekable) : Checked (Nat × Peekable) := do
  let (item, p) ← p.peek
  if last + 1 < 2 ^ 32 then
    if item = some (last + 1) then
      let (_, p) ← p.next
      extend (last + 1) p
    else return (last, p)
  else .error .sum
termination_by 2 ^ 32 - last

/-- Takes the next run off the bits, each bit standing for the number `offset` above it. -/
def nextRun (offset : Nat) (p : Peekable) : Checked (Option Run × Peekable) := do
  let (item, p) ← p.next
  match item with
  | none => return (none, p)
  | some first =>
    let (last, p) ← p.extend first
    return (some ⟨← sum 32 first offset, ← sum 32 last offset⟩, p)

/-- The bits that are still to come. -/
inductive Shows : Peekable → List Nat → Prop
  | fresh (rest : BitSet 64) : Shows ⟨none, rest⟩ rest.members
  | seen {i : Nat} (rest : BitSet 64) (small : i < 64) :
      Shows ⟨some (some i), rest⟩ (i :: rest.members)
  | ended : Shows ⟨some none, 0⟩ []

section

variable {p : Peekable} {l : List Nat} {offset : Nat} {out : List Run}

theorem Shows.lt_of_mem (h : Shows p l) {i : Nat} (hi : i ∈ l) : i < 64 := by
  cases h with
  | fresh rest => exact BitSet.lt_of_getLsbD (BitSet.mem_members.1 hi)
  | seen rest small =>
    rcases List.mem_cons.1 hi with rfl | hi
    · exact small
    · exact BitSet.lt_of_getLsbD (BitSet.mem_members.1 hi)
  | ended => cases hi

theorem Shows.next_eq (h : Shows p l) : ∃ p', p.next = .ok (l.head?, p') ∧ Shows p' l.tail := by
  cases h with
  | fresh rest =>
    obtain ⟨rest', given, left⟩ := exists_nextBit rest
    refine ⟨⟨none, rest'⟩, ?_, left ▸ .fresh rest'⟩
    rw [next, given]
    rfl
  | seen rest small => exact ⟨⟨none, rest⟩, rfl, .fresh rest⟩
  | ended => exact ⟨⟨none, 0⟩, rfl, .fresh 0⟩

/-- Looking does not change what is to come. -/
theorem Shows.peek_eq (h : Shows p l) : ∃ p', p.peek = .ok (l.head?, p') ∧ Shows p' l := by
  cases h with
  | fresh rest =>
    obtain ⟨rest', given, left⟩ := exists_nextBit rest
    refine ⟨⟨some rest.members.head?, rest'⟩, ?_, ?_⟩
    · rw [peek, given]
      rfl
    · cases members : rest.members with
      | nil =>
        rw [members, List.tail_nil, members_eq_nil_iff] at left
        subst left
        exact .ended
      | cons i l =>
        rw [members, List.tail_cons] at left
        subst left
        have member : i ∈ rest.members := members ▸ List.mem_cons_self
        exact .seen rest' (BitSet.lt_of_getLsbD (BitSet.mem_members.1 member))
  | seen rest small => exact ⟨_, rfl, .seen rest small⟩
  | ended => exact ⟨_, rfl, .ended⟩

theorem Shows.next_eq_of_nil (h : Shows p []) : p.next = .ok (none, ⟨none, 0⟩) := by
  generalize none_left : ([] : List Nat) = l at h
  cases h with
  | fresh rest =>
    obtain rfl := members_eq_nil_iff.1 none_left.symm
    rfl
  | seen => cases none_left
  | ended => rfl

theorem extend_eq_of_next {v : Nat} {item : Option Nat} {p₁ p₂ : Peekable} (small : v < 64)
    (looked : p.peek = .ok (some (v + 1), p₁)) (taken : p₁.next = .ok (item, p₂)) :
    p.extend v = p₂.extend (v + 1) := by
  rw [extend, looked, ok_bind]
  dsimp only
  rw [if_pos (by omega), if_pos rfl, taken]
  rfl

theorem extend_eq_of_ne {v : Nat} {item : Option Nat} {p₁ : Peekable} (small : v < 64)
    (looked : p.peek = .ok (item, p₁)) (other : item ≠ some (v + 1)) :
    p.extend v = .ok (v, p₁) := by
  rw [extend, looked, ok_bind]
  dsimp only
  rw [if_pos (by omega), if_neg other]
  rfl

/-- A run goes on up to the first number that is missing, and the runs behind it are left. -/
theorem Shows.exists_extend {v : Nat} (h : Shows p l) (small : v < 64) :
    ∃ last l' p', p.extend v = .ok (last, p') ∧ Shows p' l' ∧ l'.length ≤ l.length ∧
      Run.group (v :: l) = ⟨v, last⟩ :: Run.group l' := by
  induction l generalizing v p with
  | nil =>
    obtain ⟨p₁, looked, left⟩ := h.peek_eq
    exact ⟨v, [], p₁, extend_eq_of_ne small looked nofun, left, Nat.le_refl _, rfl⟩
  | cons w l ih =>
    obtain ⟨p₁, looked, shown⟩ := h.peek_eq
    by_cases follows : w = v + 1
    · subst follows
      obtain ⟨p₂, taken, left⟩ := shown.next_eq
      obtain ⟨last, l', p', extended, left', shorter, grouped⟩ :=
        ih left (h.lt_of_mem List.mem_cons_self)
      exact ⟨last, l', p', (extend_eq_of_next small looked taken).trans extended, left',
        Nat.le_succ_of_le shorter, Run.group_cons_succ grouped⟩
    · have other : (w :: l).head? ≠ some (v + 1) := fun next => follows (Option.some.inj next)
      exact ⟨v, w :: l, p₁, extend_eq_of_ne small looked other, shown, Nat.le_refl _,
        Run.group_cons_of_ne other⟩

theorem nextRun_eq {v last : Nat} {p₁ p₂ : Peekable} (taken : p.next = .ok (some v, p₁))
    (extended : p₁.extend v = .ok (last, p₂)) (proper : v ≤ last)
    (room : last + offset < 2 ^ 32) :
    p.nextRun offset = .ok (some (Run.shift offset ⟨v, last⟩), p₂) := by
  rw [nextRun, taken, ok_bind]
  dsimp only
  rw [extended, ok_bind]
  dsimp only
  rw [sum_eq (by omega), ok_bind, sum_eq room]
  rfl

theorem nextRun_eq_error {v last : Nat} {p₁ p₂ : Peekable} (taken : p.next = .ok (some v, p₁))
    (extended : p₁.extend v = .ok (last, p₂)) (room : ¬last + offset < 2 ^ 32) :
    p.nextRun offset = .error .sum := by
  rw [nextRun, taken, ok_bind]
  dsimp only
  rw [extended, ok_bind]
  dsimp only
  by_cases begins : v + offset < 2 ^ 32
  · rw [sum_eq begins, ok_bind, sum_eq_error room]
    rfl
  · rw [sum_eq_error begins]
    rfl

/-- A generator of runs comes to its end just when no number is too large for a word of 32 bits, and
then it has given all runs. -/
theorem Shows.drains_nextRun_iff (h : Shows p l) : Drains (nextRun offset) p out ↔
    (∀ i ∈ l, i + offset < 2 ^ 32) ∧ out = (Run.group l).map (Run.shift offset) := by
  -- A run takes at least one number off, so the induction is on how many are still to come.
  induction count : l.length using Nat.strongRecOn generalizing l p out with
  | _ n ih =>
    cases l with
    | nil =>
      have ended : nextRun offset p = .ok (none, ⟨none, 0⟩) := by
        rw [nextRun, h.next_eq_of_nil]
        rfl
      rw [drains_iff_of_none ended rfl]
      simp [Run.group]
    | cons v l =>
      obtain ⟨p₁, taken, left⟩ := h.next_eq
      rw [List.tail_cons] at left
      obtain ⟨last, l', p₂, extended, left', shorter, grouped⟩ :=
        left.exists_extend (h.lt_of_mem List.mem_cons_self)
      rw [Run.forall_add_lt_iff_of_group_eq grouped, grouped, List.map_cons]
      by_cases room : last + offset < 2 ^ 32
      · have proper : v ≤ last :=
          Run.isProper_group (v :: l) ⟨v, last⟩ (grouped ▸ List.mem_cons_self)
        have fewer : l'.length < n := by
          rw [← count]
          exact Nat.lt_succ_of_le shorter
        rw [drains_iff_of_some (nextRun_eq taken extended proper room)]
        simp only [ih _ fewer left' rfl, and_iff_right room]
        constructor
        · rintro ⟨_, ⟨fit, rfl⟩, rfl⟩
          exact ⟨fit, rfl⟩
        · rintro ⟨fit, rfl⟩
          exact ⟨_, ⟨fit, rfl⟩, rfl⟩
      · have traps := not_drains_of_error (l := out) (nextRun_eq_error taken extended room)
        exact ⟨fun drains => absurd drains traps, fun fit => absurd fit.1.1 room⟩

/-- A fresh generator gives the runs of the moved numbers, if they fit. -/
theorem drains_nextRun_iff {set : BitSet 64} : Drains (nextRun offset) ⟨none, set⟩ out ↔
    (∀ i ∈ set.members, i + offset < 2 ^ 32) ∧
      out = Run.group (set.members.map (· + offset)) := by
  rw [(Shows.fresh set).drains_nextRun_iff, Run.group_map_add]

/-- Moved by one at most, as they are in print, the numbers of a set always fit. -/
theorem drains_nextRun_iff_of_le_one {set : BitSet 64} (near : offset ≤ 1) :
    Drains (nextRun offset) ⟨none, set⟩ out ↔
      out = Run.group (set.members.map (· + offset)) := by
  have fit : ∀ i ∈ set.members, i + offset < 2 ^ 32 := by
    intro i member
    have small := BitSet.lt_of_getLsbD (BitSet.mem_members.1 member)
    omega
  rw [drains_nextRun_iff, and_iff_right fit]

end

end Peekable

/-- **Bits and runs, exactly.** Taking the lowest bit off a word again and again gives each member
of the set once, in ascending order, and ends; looking for the next member from any number on,
beyond the word too, finds the first of these that is not below it. Gathering the bits into runs
gives, at any distance that the numbers are moved by, the grouped members, as long as the moved
numbers fit a word of 32 bits; and these runs are apart, ascending, and the shortest list of runs
that has the moved set for its numbers, of which there is no other. -/
theorem drains_members_and_runs (set : BitSet 64) :
    ((∀ out, Drains nextBit set out ↔ out = set.members) ∧
      set.members.Pairwise (· < ·) ∧ ∀ i, i ∈ set.members ↔ set.getLsbD i = true) ∧
    (∀ start, nextFrom set start = .ok (set.next? start) ∧
      set.next? start = set.members.find? (start ≤ ·)) ∧
    ∀ offset,
      (∀ out, Drains (Peekable.nextRun offset) ⟨none, set⟩ out ↔
        (∀ i, set.getLsbD i = true → i + offset < 2 ^ 32) ∧
          out = Run.group (set.members.map (· + offset))) ∧
      Run.IsShortest (Run.group (set.members.map (· + offset)))
        (fun v => offset ≤ v ∧ set.getLsbD (v - offset) = true) := by
  refine ⟨⟨fun _ => drains_nextBit_iff, BitSet.pairwise_members set, fun _ => BitSet.mem_members⟩,
    fun start => ⟨nextFrom_eq set start, (find?_members set start).symm⟩, fun offset => ⟨?_, ?_⟩⟩
  · intro out
    simp only [Peekable.drains_nextRun_iff, BitSet.mem_members]
  · have moved : (· ∈ set.members.map (· + offset)) =
        fun v => offset ≤ v ∧ set.getLsbD (v - offset) = true := by
      funext v
      simp only [List.mem_map, BitSet.mem_members, eq_iff_iff]
      constructor
      · rintro ⟨i, member, rfl⟩
        exact ⟨Nat.le_add_left _ _, by rwa [Nat.add_sub_cancel]⟩
      · rintro ⟨reached, member⟩
        exact ⟨v - offset, member, Nat.sub_add_cancel reached⟩
    rw [← moved]
    apply Run.isShortest_group
    exact List.pairwise_map.2 ((BitSet.pairwise_members set).imp fun before => by omega)

/-- A run that ends with the last bit of the word. -/
example : Run.group ((BitSet.members (w := 64) 0xc000000000000016).map (· + 1)) =
    [⟨2, 3⟩, ⟨5, 5⟩, ⟨63, 64⟩] := by decide

end Recurrence.Machine
