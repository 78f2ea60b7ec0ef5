import Recurrence.BitSet

/-!
# Members of bit sets

What each way to build a bit set puts into it (`getLsbD_singleton`, `getLsbD_interval`,
`getLsbD_ofList`), that the three ways to build a progression agree (`getLsbD_progression`,
`getLsbD_progressionFromEnd`), and what the two ways to read a set give: all members in ascending
order (`mem_members`, `pairwise_members`) and the next one (`next?_cases`).

Runs lose nothing: written out, the runs of a list are the list (`Run.flatMap_toList_group`).
-/

namespace Recurrence

namespace BitSet

variable {w : Nat}

theorem getLsbD_zero {i : Nat} : (0 : BitSet w).getLsbD i = false :=
  BitVec.getLsbD_zero

theorem zero_or (set : BitSet w) : 0 ||| set = set :=
  BitVec.zero_or

theorem or_zero (set : BitSet w) : set ||| 0 = set :=
  BitVec.or_zero

theorem ext_getLsbD {set set' : BitSet w}
    (h : ∀ i, set.getLsbD i = true ↔ set'.getLsbD i = true) : set = set' :=
  BitVec.eq_of_getLsbD_eq fun i _ => Bool.eq_iff_iff.2 (h i)

theorem eq_zero_iff {set : BitSet w} : set = 0 ↔ ∀ i, set.getLsbD i = false := by
  constructor
  · rintro rfl i
    exact getLsbD_zero
  · intro h
    apply BitVec.eq_of_getLsbD_eq
    intro i _
    rw [h i]
    exact getLsbD_zero.symm

theorem ne_zero_iff {set : BitSet w} : set ≠ 0 ↔ ∃ i, set.getLsbD i = true := by
  rw [Ne, eq_zero_iff]
  simp

theorem lt_of_getLsbD {set : BitSet w} {i : Nat} (h : set.getLsbD i = true) : i < w :=
  BitVec.lt_of_getLsbD h

/-! ## Building sets -/

theorem getLsbD_singleton {i j : Nat} :
    (singleton i : BitSet w).getLsbD j = true ↔ i < w ∧ i = j := by
  rw [singleton, BitVec.getLsbD_twoPow]
  simp

theorem getLsbD_interval {low high i : Nat} (h : high < w) :
    (interval low high : BitSet w).getLsbD i = true ↔ low ≤ i ∧ i ≤ high := by
  simp only [interval, BitVec.getLsbD_and, BitVec.getLsbD_ushiftRight, BitVec.getLsbD_shiftLeft,
    BitVec.getLsbD_allOnes, Bool.and_eq_true, decide_eq_true_eq, Bool.not_eq_true',
    decide_eq_false_iff_not]
  omega

theorem mem_ticks {low high step v : Nat} (h : 0 < step) :
    v ∈ ticks low high step ↔ low ≤ v ∧ v ≤ high ∧ step ∣ v - low := by
  rw [ticks, List.mem_range']
  constructor
  · rintro ⟨k, hk, rfl⟩
    have inside : (k + 1) * step ≤ high + step - low := (Nat.le_div_iff_mul_le h).1 hk
    rw [Nat.succ_mul, Nat.mul_comm] at inside
    exact ⟨by omega, by omega, ⟨k, by omega⟩⟩
  · rintro ⟨hlow, hhigh, k, hk⟩
    refine ⟨k, ?_, by omega⟩
    apply (Nat.le_div_iff_mul_le h).2
    rw [Nat.succ_mul, Nat.mul_comm]
    omega

theorem getLsbD_foldl_or (slot : Nat → Nat) (values : List Nat) (set : BitSet w) (i : Nat) :
    (values.foldl (fun set v => set ||| singleton (slot v)) set).getLsbD i = true ↔
      set.getLsbD i = true ∨ i < w ∧ ∃ v ∈ values, slot v = i := by
  induction values generalizing set with
  | nil => simp
  | cons v values ih =>
    rw [List.foldl_cons, ih, BitVec.getLsbD_or, Bool.or_eq_true, getLsbD_singleton, or_assoc]
    apply or_congr_right
    simp only [List.mem_cons, exists_eq_or_imp]
    constructor
    · rintro (⟨hv, rfl⟩ | ⟨hi, tail⟩)
      · exact ⟨hv, .inl rfl⟩
      · exact ⟨hi, .inr tail⟩
    · rintro ⟨hi, rfl | tail⟩
      · exact .inl ⟨hi, rfl⟩
      · exact .inr ⟨hi, tail⟩

theorem getLsbD_ofList {slot : Nat → Nat} {values : List Nat} {i : Nat} :
    (ofList slot values : BitSet w).getLsbD i = true ↔ i < w ∧ ∃ v ∈ values, slot v = i := by
  rw [ofList, getLsbD_foldl_or]
  simp

theorem getLsbD_ofList_ticks {low high step i : Nat} (positive : 0 < step) (hw : high < w) :
    (ofList id (ticks low high step) : BitSet w).getLsbD i = true ↔
      low ≤ i ∧ i ≤ high ∧ step ∣ i - low := by
  rw [getLsbD_ofList]
  simp only [mem_ticks positive, id_eq, exists_eq_right]
  exact and_iff_right_of_imp fun h => Nat.lt_of_le_of_lt h.2.1 hw

theorem getLsbD_ofList_ticks_fromEnd {low high step top i : Nat} (positive : 0 < step)
    (htop : high ≤ top) (hw : top < w) :
    (ofList (top - ·) (ticks low high step) : BitSet w).getLsbD i = true ↔
      i ≤ top ∧ low ≤ top - i ∧ top - i ≤ high ∧ step ∣ top - i - low := by
  rw [getLsbD_ofList]
  simp only [mem_ticks positive]
  constructor
  · rintro ⟨_, v, ⟨hlow, hhigh, hdvd⟩, rfl⟩
    rw [Nat.sub_sub_self (by omega)]
    exact ⟨Nat.sub_le _ _, hlow, hhigh, hdvd⟩
  · rintro ⟨hi, hlow, hhigh, hdvd⟩
    exact ⟨by omega, top - i, ⟨hlow, hhigh, hdvd⟩, Nat.sub_sub_self hi⟩

/-- One bit, a mask and a walk all give the progression that they stand for. Zero divides zero
alone, so that a step of zero selects `low`. -/
theorem getLsbD_progression {low high step i : Nat} (hle : low ≤ high) (hw : high < w) :
    (progression low high step : BitSet w).getLsbD i = true ↔
      low ≤ i ∧ i ≤ high ∧ step ∣ i - low := by
  match step with
  | 0 =>
    rw [progression, getLsbD_singleton, Nat.zero_dvd]
    omega
  | 1 =>
    rw [progression, getLsbD_interval hw]
    simp
  | step + 2 => exact getLsbD_ofList_ticks (Nat.succ_pos _) hw

/-- Read from its end, a progression is its mirror image. -/
theorem getLsbD_progressionFromEnd {low high step top i : Nat} (hle : low ≤ high)
    (htop : high ≤ top) (hw : top < w) :
    (progressionFromEnd low high step top : BitSet w).getLsbD i = true ↔
      i ≤ top ∧ low ≤ top - i ∧ top - i ≤ high ∧ step ∣ top - i - low := by
  match step with
  | 0 =>
    rw [progressionFromEnd, getLsbD_singleton, Nat.zero_dvd]
    omega
  | 1 =>
    rw [progressionFromEnd, getLsbD_interval (by omega)]
    simp only [Nat.one_dvd, and_true]
    omega
  | step + 2 => exact getLsbD_ofList_ticks_fromEnd (Nat.succ_pos _) htop hw

/-- A walk gives the progression of any step that leads on, also where masks are taken instead. -/
theorem ofList_ticks {low high step : Nat} (hle : low ≤ high) (hw : high < w)
    (positive : 0 < step) : (ofList id (ticks low high step) : BitSet w) =
      progression low high step :=
  ext_getLsbD fun _ => (getLsbD_ofList_ticks positive hw).trans (getLsbD_progression hle hw).symm

theorem ofList_ticks_fromEnd {low high step top : Nat} (hle : low ≤ high) (htop : high ≤ top)
    (hw : top < w) (positive : 0 < step) : (ofList (top - ·) (ticks low high step) : BitSet w) =
      progressionFromEnd low high step top :=
  ext_getLsbD fun _ => (getLsbD_ofList_ticks_fromEnd positive htop hw).trans
    (getLsbD_progressionFromEnd hle htop hw).symm

/-! ## Reading sets -/

theorem mem_members {set : BitSet w} {i : Nat} : i ∈ set.members ↔ set.getLsbD i = true := by
  rw [members, List.mem_filter, List.mem_range]
  exact and_iff_right_of_imp lt_of_getLsbD

theorem pairwise_members (set : BitSet w) : set.members.Pairwise (· < ·) :=
  List.Pairwise.filter _ List.pairwise_lt_range

theorem next?_eq_some_iff {set : BitSet w} {start i : Nat} :
    set.next? start = some i ↔
      start ≤ i ∧ set.getLsbD i = true ∧ ∀ j, start ≤ j → j < i → set.getLsbD j = false := by
  rw [next?, List.find?_range'_eq_some, List.mem_range'_1]
  constructor
  · rintro ⟨member, ⟨hle, _⟩, least⟩
    exact ⟨hle, member, fun j hj hji => by simpa using least j hj hji⟩
  · rintro ⟨hle, member, least⟩
    have inside := lt_of_getLsbD member
    exact ⟨member, ⟨hle, by omega⟩, fun j hj hji => by simpa using least j hj hji⟩

theorem next?_eq_none_iff {set : BitSet w} {start : Nat} :
    set.next? start = none ↔ ∀ j, start ≤ j → set.getLsbD j = false := by
  rw [next?, List.find?_range'_eq_none]
  constructor
  · intro h j hj
    by_cases inside : j < w
    · simpa using h j hj (by omega)
    · exact BitVec.getLsbD_of_ge _ _ (Nat.le_of_not_lt inside)
  · intro h j hj _
    simpa using h j hj

/-- A walk through a set stays at a member, goes on to the next one, or ends. -/
theorem next?_cases (set : BitSet w) (i : Nat) :
    set.next? i = some i ∧ set.getLsbD i = true ∨
      (∃ j, set.next? i = some j ∧ i < j ∧ set.getLsbD j = true ∧
        ∀ k, i ≤ k → k < j → set.getLsbD k = false) ∨
      set.next? i = none ∧ ∀ k, i ≤ k → set.getLsbD k = false := by
  cases found : set.next? i with
  | none => exact .inr (.inr ⟨rfl, next?_eq_none_iff.1 found⟩)
  | some j =>
    obtain ⟨hle, member, least⟩ := next?_eq_some_iff.1 found
    rcases Nat.eq_or_lt_of_le hle with rfl | later
    · exact .inl ⟨rfl, member⟩
    · exact .inr (.inl ⟨j, rfl, later, member, least⟩)

end BitSet

/-! ## Runs -/

namespace Run

/-- A run that ends no earlier than it begins. -/
def IsProper (r : Run) : Prop := r.first ≤ r.last

theorem mem_toList {r : Run} {v : Nat} : v ∈ r.toList ↔ r.first ≤ v ∧ v ≤ r.last := by
  rw [toList, List.mem_range'_1]
  omega

theorem toList_cons {v last : Nat} (h : v < last) :
    toList ⟨v, last⟩ = v :: toList ⟨v + 1, last⟩ := by
  have count : last + 1 - v = (last + 1 - (v + 1)) + 1 := by omega
  rw [toList, toList, count, List.range'_succ]

theorem isProper_cons {v : Nat} {rs : List Run} (h : ∀ r ∈ rs, r.IsProper) :
    ∀ r ∈ cons v rs, r.IsProper := by
  intro r hr
  match rs with
  | [] =>
    cases List.mem_singleton.1 hr
    exact Nat.le_refl v
  | first :: rs =>
    have proper : first.first ≤ first.last := h first List.mem_cons_self
    rw [cons] at hr
    split at hr
    · rcases List.mem_cons.1 hr with rfl | hr
      · have joined : v ≤ first.last := by omega
        exact joined
      · exact h r (List.mem_cons_of_mem _ hr)
    · rcases List.mem_cons.1 hr with rfl | hr
      · exact Nat.le_refl v
      · exact h r hr

theorem flatMap_toList_cons {v : Nat} {rs : List Run} (h : ∀ r ∈ rs, r.IsProper) :
    (cons v rs).flatMap toList = v :: rs.flatMap toList := by
  match rs with
  | [] => simp [cons, toList]
  | first :: rs =>
    have proper : first.first ≤ first.last := h first List.mem_cons_self
    rw [cons]
    split
    · rename_i joins
      rw [List.flatMap_cons, List.flatMap_cons, toList_cons (by omega), ← joins]
      rfl
    · rw [List.flatMap_cons]
      simp [toList]

theorem isProper_group (values : List Nat) : ∀ r ∈ group values, r.IsProper := by
  induction values with
  | nil => intro r hr; cases hr
  | cons v values ih => exact isProper_cons ih

theorem flatMap_toList_group (values : List Nat) : (group values).flatMap toList = values := by
  induction values with
  | nil => rfl
  | cons v values ih =>
    show (cons v (group values)).flatMap toList = v :: values
    rw [flatMap_toList_cons (isProper_group values), ih]

theorem exists_mem_group {values : List Nat} {v : Nat} :
    v ∈ values ↔ ∃ r ∈ group values, r.first ≤ v ∧ v ≤ r.last := by
  conv => lhs; rw [← flatMap_toList_group values]
  simp only [List.mem_flatMap, mem_toList]

end Run

end Recurrence
