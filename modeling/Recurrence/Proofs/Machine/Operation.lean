import Mathlib.Algebra.Group.Int.Defs
import Mathlib.Algebra.Group.Nat.Defs
import Recurrence.Proofs.BitSet

/-!
# Operations within their domain

On a machine some operations are partial: a difference of counts must not fall below zero, a sum or
a narrowed value must fit its word, a shift must be smaller than the word, an index and the ends of
a slice must lie within the list. A computation here either does each such operation within its
domain or ends in a trap (`Checked`); an attempt may also be refused for a cause of its own
(`Attempt`). That an attempt yields a result (`Yields`) says that it does not trap, and it is shown
along the steps of the attempt (`Yields.bind`, `Yields.foldlM`).
-/

namespace Recurrence.Machine

/-- An operation outside its domain. -/
inductive Trap
  /-- A position outside a list. -/
  | index
  /-- Ends of a slice out of order, outside the text or within a character. -/
  | slice
  /-- A difference below zero. -/
  | difference
  /-- A sum that does not fit the word. -/
  | sum
  /-- A shift by the width of the word or more. -/
  | shift
  /-- A value that does not fit the narrower word. -/
  | narrowing
deriving DecidableEq, Repr

/-- A computation that gives a value or ends in a trap. -/
abbrev Checked := Except Trap

/-- A computation that may also be refused for a cause. -/
abbrev Attempt (ε : Type) := ExceptT ε Checked

/-! ## Operations -/

def require (domain : Prop) [Decidable domain] (trap : Trap) : Checked Unit :=
  if domain then .ok () else .error trap

def difference (a b : Nat) : Checked Nat := do
  require (b ≤ a) .difference
  return a - b

/-- The sum of two numbers in a word of some bits. -/
def sum (bits a b : Nat) : Checked Nat := do
  require (a + b < 2 ^ bits) .sum
  return a + b

/-- A number in a narrower word. -/
def narrow (bits : Nat) (value : Int) : Checked Nat := do
  require (0 ≤ value ∧ value < 2 ^ bits) .narrowing
  return value.toNat

/-- A set in a narrower word. -/
def narrowSet (w : Nat) (set : BitSet 64) : Checked (BitSet w) := do
  require (set.toNat < 2 ^ w) .narrowing
  return set.setWidth w

/-- A word with one bit set. -/
def bit (i : Nat) : Checked (BitSet 64) := do
  require (i < 64) .shift
  return 1#64 <<< i

/-- A word with all bits below some position set. -/
def bitsBelow (i : Nat) : Checked (BitSet 64) := do
  let set ← bit i
  require (set ≠ 0) .difference
  return set - 1

def elementAt {α : Type} (l : List α) (i : Nat) : Checked α :=
  match l[i]? with
  | some a => .ok a
  | none => .error .index

section

variable {a b i w : Nat} {set : BitSet 64}

theorem require_eq {domain : Prop} [Decidable domain] {trap : Trap} (h : domain) :
    require domain trap = .ok () := if_pos h

theorem require_eq_ok_iff {domain : Prop} [Decidable domain] {trap : Trap} {u : Unit} :
    require domain trap = .ok u ↔ domain := by
  unfold require
  split
  · simpa
  · simpa

theorem ok_bind {α β : Type} (a : α) (f : α → Checked β) : ((.ok a : Checked α) >>= f) = f a := rfl

theorem difference_eq (h : b ≤ a) : difference a b = .ok (a - b) := by
  rw [difference, require_eq h]
  rfl

theorem sum_eq {bits : Nat} (h : a + b < 2 ^ bits) : sum bits a b = .ok (a + b) := by
  rw [sum, require_eq h]
  rfl

theorem sum_eq_error {bits : Nat} (h : ¬a + b < 2 ^ bits) : sum bits a b = .error .sum := by
  rw [sum, require, if_neg h]
  rfl

theorem sum_eq_ok_iff {bits c : Nat} : sum bits a b = .ok c ↔ a + b < 2 ^ bits ∧ c = a + b := by
  by_cases room : a + b < 2 ^ bits
  · rw [sum_eq room, Except.ok.injEq, and_iff_right room, eq_comm]
  · rw [sum_eq_error room]
    exact ⟨nofun, fun h => absurd h.1 room⟩

theorem narrow_eq {bits : Nat} {value : Int} (h : 0 ≤ value ∧ value < 2 ^ bits) :
    narrow bits value = .ok value.toNat := by
  rw [narrow, require_eq h]
  rfl

theorem narrowSet_eq (h : ∀ i, set.getLsbD i = true → i < w) :
    narrowSet w set = .ok (set.setWidth w) := by
  have small : set.toNat < 2 ^ w := by
    apply Nat.lt_pow_two_of_testBit
    intro i beyond
    rw [Bool.eq_false_iff]
    intro member
    exact Nat.not_lt.2 beyond (h i member)
  rw [narrowSet, require_eq small]
  rfl

theorem bit_eq (h : i < 64) : bit i = .ok (BitSet.singleton i) := by
  rw [bit, require_eq h]
  rfl

theorem bitsBelow_eq (h : i < 64) : bitsBelow i = .ok (BitSet.singleton i - 1) := by
  have member : (BitSet.singleton i : BitSet 64) ≠ 0 :=
    BitSet.ne_zero_iff.2 ⟨i, BitSet.getLsbD_singleton.2 ⟨h, rfl⟩⟩
  rw [bitsBelow, bit_eq h, ok_bind, require_eq member]
  rfl

theorem getLsbD_bitsBelow (h : i < 64) (j : Nat) :
    (BitSet.singleton i - 1 : BitSet 64).getLsbD j = decide (j < i) := by
  have toNat : (BitSet.singleton i - 1 : BitSet 64).toNat = 2 ^ i - 1 := by
    rw [BitSet.singleton, BitVec.toNat_sub_of_le, BitVec.toNat_twoPow_of_lt h]
    · rfl
    · rw [BitVec.le_def, BitVec.toNat_twoPow_of_lt h]
      exact Nat.two_pow_pos i
  rw [BitVec.getLsbD, toNat, Nat.testBit_two_pow_sub_one]

end

/-! ## Attempts -/

section

variable {ε ε' α β σ τ : Type}

/-- A computation that has no operation that could trap. -/
def Attempt.ofExcept (r : Except ε α) : Attempt ε α := ExceptT.mk (.ok r)

/-- An attempt does not trap, and ends as told. -/
def Yields (m : Attempt ε α) (r : Except ε α) : Prop := m.run = .ok r

namespace Yields

variable {m : Attempt ε α} {f : α → Attempt ε β}

theorem ofExcept (r : Except ε α) : Yields (Attempt.ofExcept r) r := rfl

theorem unique {r r' : Except ε α} (h : Yields m r) (h' : Yields m r') : r = r' :=
  Except.ok.inj (h.symm.trans h')

theorem bind_ok {a : α} {r : Except ε β} (h : Yields m (.ok a)) (next : Yields (f a) r) :
    Yields (m >>= f) r := by
  have run : (m >>= f).run = m.run >>= ExceptT.bindCont f := rfl
  rw [Yields, run, h]
  exact next

theorem bind_error {e : ε} (h : Yields m (.error e)) : Yields (m >>= f) (.error e) := by
  have run : (m >>= f).run = m.run >>= ExceptT.bindCont f := rfl
  rw [Yields, run, h]
  rfl

theorem bind {r : Except ε α} {g : α → Except ε β} (h : Yields m r)
    (next : ∀ a, r = .ok a → Yields (f a) (g a)) : Yields (m >>= f) (r >>= g) := by
  cases r with
  | error e => exact bind_error h
  | ok a => exact bind_ok h (next a rfl)

theorem map {r : Except ε α} {g : α → β} (h : Yields m r) :
    Yields (m >>= fun a => pure (g a)) (r.map g) := by
  cases r with
  | error e => exact bind_error h
  | ok a => exact bind_ok h rfl

/-- An operation within its domain does not hold an attempt up. -/
theorem lift_bind {m : Checked α} {a : α} {r : Except ε β} (h : m = .ok a)
    (next : Yields (f a) r) : Yields (liftM m >>= f) r := by
  rw [h]
  exact next

theorem adapt {r : Except ε α} (blame : ε → ε') (h : Yields m r) :
    Yields (ExceptT.adapt blame m) (r.mapError blame) := by
  have run : (ExceptT.adapt blame m).run = Except.mapError blame <$> m.run := rfl
  rw [Yields, run, h]
  rfl

/-- Going through a list yields what the steps do, when states correspond before and after each of
them. -/
theorem foldlM {step : σ → α → Attempt ε σ} {step' : τ → α → Except ε τ} (state : τ → σ)
    {l : List α} (h : ∀ s, ∀ a ∈ l, Yields (step (state s) a) ((step' s a).map state)) (s : τ) :
    Yields (l.foldlM step (state s)) ((l.foldlM step' s).map state) := by
  induction l generalizing s with
  | nil => rfl
  | cons a l ih =>
    have first := h s a List.mem_cons_self
    rw [List.foldlM_cons, List.foldlM_cons]
    cases taken : step' s a with
    | error e =>
      rw [taken] at first
      exact bind_error first
    | ok s' =>
      rw [taken] at first
      exact bind_ok first (ih (fun s b member => h s b (List.mem_cons_of_mem a member)) s')

end Yields

end

end Recurrence.Machine
