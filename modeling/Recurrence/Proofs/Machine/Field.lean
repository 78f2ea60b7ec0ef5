import Recurrence.Proofs.Field.Stride
import Recurrence.Proofs.Machine.Operation

/-!
# Fields within a machine's bounds

The sets of a field are made by shifting and masking a word of 64 bits, or by a walk over the
values in words of 32 bits. Once a range is tested, none of this can trap and the set is that of the
field (`encode_eq`), save that a walk passes the end of the range by up to one step, so that the
step must leave room for it (`largestStride`). The test itself narrows the bounds of a range to
bytes when they are known to fit (`yields_rangeSet`).
-/

namespace Recurrence.Machine

/-! ## Sets of ranges -/

/-- The numbers from `low` to `high`, as the difference of two masks. -/
def interval (low high : Nat) : Checked (BitSet 64) := do
  let upTo ← bitsBelow (← sum 32 high 1)
  let below ← bitsBelow low
  return upTo &&& ~~~below

/-- Adds the bits of `i`, `i + step`, … up to `high` to a set, the bit of a number being told by
`slot`. -/
def walk (slot : Nat → Checked Nat) (high step : Nat) (positive : 0 < step) (i : Nat)
    (set : BitSet 64) : Checked (BitSet 64) :=
  if i ≤ high then do
    let set' := set ||| (← bit (← slot i))
    require (i + step < 2 ^ 32) .sum
    walk slot high step positive (i + step) set'
  else return set
termination_by high + 1 - i

def progression (low high step : Nat) : Checked (BitSet 64) :=
  match step with
  | 0 => bit low
  | 1 => interval low high
  | step + 2 => walk .ok high (step + 2) (Nat.succ_pos _) low 0

def progressionFromEnd (low high step top : Nat) : Checked (BitSet 64) :=
  match step with
  | 0 => do bit (← difference top low)
  | 1 => do interval (← difference top high) (← difference top low)
  | step + 2 => walk (difference top) high (step + 2) (Nat.succ_pos _) low 0

/-- The bit set of a range of a field. -/
def encode (f : Field) (low high step : Nat) : Checked (BitSet 64) :=
  match f with
  | .day | .month => do progression (← difference low 1) (← difference high 1) step
  | .lastDay => progressionFromEnd low high step 31
  | _ => progression low high step

def allValues (f : Field) : Checked (BitSet 64) :=
  encode f f.least f.greatest 1

/-- The largest step with which a walk can pass any value of a field within 32 bits. -/
def largestStride : Nat := 4294967232

section Sets

variable {low high step top : Nat}

theorem interval_eq (hle : low ≤ high) (h : high < 63) :
    interval low high = .ok (BitSet.interval low high) := by
  rw [interval, sum_eq (by omega), ok_bind, bitsBelow_eq (by omega), ok_bind,
    bitsBelow_eq (by omega), ok_bind]
  apply congrArg Except.ok
  apply BitVec.eq_of_getLsbD_eq
  intro i _
  rw [Bool.eq_iff_iff, BitSet.getLsbD_interval (by omega), BitVec.getLsbD_and, BitVec.getLsbD_not,
    getLsbD_bitsBelow (by omega), getLsbD_bitsBelow (by omega)]
  simp only [Bool.and_eq_true, decide_eq_true_eq, Bool.not_eq_true', decide_eq_false_iff_not]
  omega

theorem ticks_of_le (h : low ≤ high) (positive : 0 < step) :
    BitSet.ticks low high step = low :: BitSet.ticks (low + step) high step := by
  have count : (high + step - low) / step = (high + step - (low + step)) / step + 1 := by
    rw [← Nat.add_div_right _ positive]
    congr 1
    omega
  rw [BitSet.ticks, BitSet.ticks, count, List.range'_succ]

theorem ticks_of_lt (h : high < low) (positive : 0 < step) : BitSet.ticks low high step = [] := by
  have none : (high + step - low) / step = 0 := Nat.div_eq_of_lt (by omega)
  rw [BitSet.ticks, none, List.range'_zero]

/-- A walk adds the bits that it comes to, if each of them lies within the word and the last step
leads to no number beyond 32 bits. -/
theorem walk_eq {slot : Nat → Checked Nat} {slot' : Nat → Nat} {positive : 0 < step} {i : Nat}
    (slots : ∀ i, low ≤ i → i ≤ high → slot i = .ok (slot' i) ∧ slot' i < 64)
    (room : high + step < 2 ^ 32) (hi : low ≤ i) (set : BitSet 64) :
    walk slot high step positive i set =
      .ok ((BitSet.ticks i high step).foldl (fun set v => set ||| BitSet.singleton (slot' v))
        set) := by
  by_cases reached : i ≤ high
  · obtain ⟨place, inside⟩ := slots i hi reached
    rw [walk, if_pos reached, place, ok_bind, bit_eq inside, ok_bind, require_eq (by omega),
      ok_bind, ticks_of_le reached positive, List.foldl_cons]
    exact walk_eq slots room (by omega) _
  · rw [walk, if_neg reached, ticks_of_lt (by omega) positive]
    rfl
termination_by high + 1 - i

theorem progression_eq (hle : low ≤ high) (h : high < 63) (room : high + step < 2 ^ 32) :
    progression low high step = .ok (BitSet.progression low high step) := by
  match step with
  | 0 => exact bit_eq (by omega)
  | 1 => exact interval_eq hle h
  | step + 2 => exact walk_eq (fun i _ _ => ⟨rfl, by omega⟩) room (Nat.le_refl low) 0

theorem progressionFromEnd_eq (hle : low ≤ high) (htop : high ≤ top) (h : top < 63)
    (room : high + step < 2 ^ 32) :
    progressionFromEnd low high step top = .ok (BitSet.progressionFromEnd low high step top) := by
  match step with
  | 0 =>
    rw [progressionFromEnd, difference_eq (by omega), ok_bind]
    exact bit_eq (by omega)
  | 1 =>
    rw [progressionFromEnd, difference_eq htop, ok_bind, difference_eq (by omega), ok_bind]
    exact interval_eq (by omega) (by omega)
  | step + 2 =>
    exact walk_eq (fun i _ _ => ⟨difference_eq (by omega), by omega⟩) room (Nat.le_refl low) 0

theorem greatest_le (f : Field) : f.greatest ≤ 59 := by
  cases f <;> decide

/-- Within the bounds of a field a range has its set. -/
theorem encode_eq {f : Field} (hlow : f.least ≤ low) (hle : low ≤ high) (hhigh : high ≤ f.greatest)
    (hstep : step ≤ largestStride) : encode f low high step = .ok (f.encode low high step) := by
  have bound := greatest_le f
  unfold largestStride at hstep
  cases f
  case day | month =>
    have hlow : 1 ≤ low := hlow
    rw [encode, difference_eq hlow, ok_bind, difference_eq (Nat.le_trans hlow hle), ok_bind]
    exact progression_eq (by omega) (by omega) (by omega)
  case lastDay => exact progressionFromEnd_eq hle hhigh (by decide) (by omega)
  all_goals exact progression_eq hle (by omega) (by omega)

/-- One step more than there is room for: the walk sets the bit of its only value and traps. -/
example : encode .minute 59 59 4294967237 = .error .sum := by
  simp only [encode, progression]
  rw [walk, ok_bind, bit_eq (by decide)]
  rfl

theorem allValues_eq (f : Field) : allValues f = .ok f.allValues :=
  encode_eq (Nat.le_refl _) f.least_le_greatest (Nat.le_refl _) (by decide)

end Sets

/-! ## Tested ranges -/

def checkBound (f : Field) (value : Int) : Attempt Fault Unit :=
  if value < f.least then throw (.belowMinimum value f.least)
  else if f.greatest < value then throw (.aboveMaximum value f.greatest)
  else return ()

/-- Tests a range and narrows its bounds to bytes. The length of the range is needed only where
there is a step. -/
def check (f : Field) (low high : Int) (step : Nat) : Attempt Fault (Nat × Nat) := do
  checkBound f low
  checkBound f high
  let low ← narrow 8 low
  let high ← narrow 8 high
  if high < low then throw (.invertedRange low high)
  else if step = 0 then return (low, high)
  else do
    let span ← difference high low
    if span < step ∧ high ≠ low then throw (.stepTooLarge step span)
    else return (low, high)

def rangeSet (f : Field) (low high : Int) (step : Nat) : Attempt Fault (BitSet 64) := do
  let (low, high) ← check f low high step
  encode f low high step

section Ranges

variable {f : Field} {low high : Int} {step : Nat}

theorem yields_checkBound (f : Field) (value : Int) :
    Yields (checkBound f value) ((f.checkBound value).map fun _ => ()) := by
  unfold checkBound Field.checkBound
  by_cases below : value < f.least
  · rw [if_pos below, if_pos below]
    rfl
  · rw [if_neg below, if_neg below]
    by_cases above : (f.greatest : Int) < value
    · rw [if_pos above, if_pos above]
      rfl
    · rw [if_neg above, if_neg above]
      rfl

/-- The test of a range never traps: the bounds are narrowed when they are known to fit, and the
length of the range is taken when they are known to be in order. -/
theorem yields_check (f : Field) (low high : Int) (step : Nat) :
    Yields (check f low high step) (f.check low high step) := by
  have boundLow := yields_checkBound f low
  have boundHigh := yields_checkBound f high
  unfold Field.check
  cases testLow : f.checkBound low with
  | error fault =>
    rw [testLow] at boundLow
    exact boundLow.bind_error
  | ok l =>
    rw [testLow] at boundLow
    refine boundLow.bind_ok ?_
    cases testHigh : f.checkBound high with
    | error fault =>
      rw [testHigh] at boundHigh
      exact boundHigh.bind_error
    | ok h =>
      rw [testHigh] at boundHigh
      refine boundHigh.bind_ok ?_
      obtain ⟨_, fitsLow, rfl⟩ := Field.checkBound_eq_ok_iff.1 testLow
      obtain ⟨_, fitsHigh, rfl⟩ := Field.checkBound_eq_ok_iff.1 testHigh
      have largest := greatest_le f
      refine Yields.lift_bind (narrow_eq (by omega)) (Yields.lift_bind (narrow_eq (by omega)) ?_)
      rw [Int.toNat_natCast, Int.toNat_natCast]
      show Yields _ (if h < l then .error (Fault.invertedRange l h)
        else if h - l < step ∧ h ≠ l then .error (Fault.stepTooLarge step (h - l)) else .ok (l, h))
      by_cases inverted : h < l
      · rw [if_pos inverted, if_pos inverted]
        rfl
      · rw [if_neg inverted, if_neg inverted]
        by_cases none : step = 0
        · rw [if_pos none, if_neg (by omega)]
          rfl
        · rw [if_neg none]
          refine Yields.lift_bind (difference_eq (Nat.not_lt.1 inverted)) ?_
          by_cases leaves : h - l < step ∧ h ≠ l
          · rw [if_pos leaves, if_pos leaves]
            rfl
          · rw [if_neg leaves, if_neg leaves]
            rfl

theorem yields_rangeSet (hstep : step ≤ largestStride) :
    Yields (rangeSet f low high step) (f.rangeSet low high step) := by
  refine (yields_check f low high step).bind fun bounds passed => ?_
  obtain ⟨⟨least, order, greatest, _⟩, rfl, rfl⟩ := Field.check_eq_ok_iff.1 passed
  simp only at least order greatest
  exact congrArg (Except.map Except.ok) (encode_eq (by omega) (by omega) (by omega) hstep)

end Ranges

end Recurrence.Machine
