import Recurrence.Occurrence.Search
import Recurrence.Proofs.Occurrence.Carry
import Recurrence.Proofs.Zone

/-!
# What a search passes over

A step of a search misses nothing (`NothingMissed.of_carry`, `NothingMissed.of_unit`): the times
between its two ends that meet the rule are given up or have no instant left. A run puts steps
together, so it misses nothing before its answer (`search_eq_some`) and, when it has none, nothing
within its bounds (`search_eq_none`).
-/

namespace Recurrence

namespace Rule

variable {r : Rule} {z : Zone} {after t : Instant} {stop : Option WallClock} {lastYear : Int}
  {w v next : WallClock}

theorem unit_eq (r : Rule) : r.unit = 1 ∨ r.unit = 60 := by
  unfold unit
  split
  · exact .inl rfl
  · exact .inr rfl

theorem lt_unit (r : Rule) (w : WallClock) : w < ⟨w.seconds + r.unit⟩ := by
  show w.seconds < w.seconds + r.unit
  rcases r.unit_eq with unit | unit
  · omega
  · omega

theorem le_unit (r : Rule) (w : WallClock) : w ≤ ⟨w.seconds + r.unit⟩ :=
  Int.le_of_lt (r.lt_unit w)

/-- A search goes on from time to time until it comes to an instant or to an end. -/
theorem search_eq (r : Rule) (z : Zone) (after : Instant) (stop : Option WallClock) (lastYear : Int)
    (w : WallClock) :
    r.search z after stop lastYear w =
      if lastYear < w.date.year ∨ stop.any (· < w) then none
      else
        match r.carry? z w with
        | some next => if next ≤ .last then r.search z after stop lastYear next else none
        | none =>
          match z.firstInstant? w after with
          | some t => some t
          | none =>
            if (⟨w.seconds + r.unit⟩ : WallClock) ≤ .last then
              r.search z after stop lastYear ⟨w.seconds + r.unit⟩
            else none := by
  rw [search.eq_def]
  split
  · rfl
  · split
    · rename_i next carried
      rw [carried]
    · rename_i stays
      cases z.firstInstant? w after <;> rw [stays]

/-- A time that a search from `w` on may pass by although it meets the rule: it is given up for a
skipped hour, or the clock does not show it any more. -/
def Passable (r : Rule) (z : Zone) (after : Instant) (w v : WallClock) : Prop :=
  r.admits v = true → r.GivesUpFrom z w v ∨ z.firstInstant? v after = none

theorem Passable.of_le {u : WallClock} (hle : u ≤ w) (h : r.Passable z after w v) :
    r.Passable z after u v :=
  fun met => (h met).imp_left (GivesUpFrom.of_le hle)

/-- All times from `w` on and before `c` may be passed by. -/
def NothingMissed (r : Rule) (z : Zone) (after : Instant) (w c : WallClock) : Prop :=
  ∀ v, w ≤ v → v < c → r.Passable z after w v

namespace NothingMissed

theorem refl (w : WallClock) : r.NothingMissed z after w w := by
  intro v hle hlt
  exact absurd hlt (Int.not_lt.2 hle)

theorem trans {u : WallClock} (order : w ≤ v) (h : r.NothingMissed z after w v)
    (h' : r.NothingMissed z after v u) : r.NothingMissed z after w u := by
  intro x hle hlt
  by_cases before : x.seconds < v.seconds
  · exact h x hle before
  · exact (h' x (Int.not_lt.1 before) hlt).of_le order

/-- A carry misses nothing. -/
theorem of_carry (hr : r.IsWellFormed) (h : r.carry? z w = some next) :
    r.NothingMissed z after w next :=
  fun _ hle hlt met => .inl (givesUpFrom_of_carry? hr h hle hlt met)

/-- Nor does the step of one unit from a time that meets the rule but has no instant left. -/
theorem of_unit (h : r.carry? z w = none) (gone : z.firstInstant? w after = none) :
    r.NothingMissed z after w ⟨w.seconds + r.unit⟩ := by
  intro v hle hlt met
  have here := unit_dvd_of_admits (carry?_eq_none_iff.1 h).1
  have there := unit_dvd_of_admits met
  have hle : w.seconds ≤ v.seconds := hle
  have hlt : v.seconds < w.seconds + r.unit := hlt
  -- Both are whole units, so the two times are one.
  have same : v.seconds = w.seconds := by
    rcases r.unit_eq with unit | unit
    · rw [unit] at hlt
      omega
    · rw [unit] at here there hlt
      omega
  rw [show v = w from congrArg WallClock.mk same]
  exact .inr gone

end NothingMissed

/-- A search that finds an instant has missed nothing before its time. -/
theorem search_eq_some (hr : r.IsWellFormed)
    (h : r.search z after stop lastYear w = some t) :
    ∃ c, w ≤ c ∧ (∀ bound, stop = some bound → c ≤ bound) ∧ r.admits c = true ∧
      z.firstInstant? c after = some t ∧ r.NothingMissed z after w c := by
  fun_induction search r z after stop lastYear w with
  | case1 => cases h
  | case2 w _ next carried _ ih =>
    obtain ⟨c, hle, hstop, met, found, missed⟩ := ih h
    have forward : w.seconds < next.seconds := lt_of_carry? carried
    exact ⟨c, Int.le_trans (Int.le_of_lt forward) hle, hstop, met, found,
      (NothingMissed.of_carry hr carried).trans (Int.le_of_lt forward) missed⟩
  | case3 => cases h
  | case4 w inside carried t' found =>
    cases h
    refine ⟨w, Int.le_refl _, ?_, (carry?_eq_none_iff.1 carried).1, found, NothingMissed.refl w⟩
    rintro bound rfl
    have passed := mt Or.inr inside
    simp only [Option.any_some, decide_eq_true_eq] at passed
    exact Int.not_lt.1 passed
  | case5 w _ carried gone next _ ih =>
    obtain ⟨c, hle, hstop, met, found, missed⟩ := ih h
    have forward := le_unit r w
    exact ⟨c, Int.le_trans forward hle, hstop, met, found,
      (NothingMissed.of_unit carried gone).trans forward missed⟩
  | case6 => cases h

theorem year_mono (h : w ≤ v) : w.date.year ≤ v.date.year :=
  Date.year_mono (WallClock.dayNumber_mono h)

/-- A search that finds nothing has missed nothing within its bounds. -/
theorem search_eq_none (hr : r.IsWellFormed) (h : r.search z after stop lastYear w = none)
    (hle : w ≤ v) (hlast : v ≤ .last) (hstop : ∀ bound, stop = some bound → v ≤ bound)
    (hyear : v.date.year ≤ lastYear) : r.Passable z after w v := by
  fun_induction search r z after stop lastYear w with
  | case1 w outside =>
    rcases outside with late | passed
    · have := year_mono hle
      omega
    · cases stop with
      | none => cases passed
      | some bound =>
        have passed : bound.seconds < w.seconds := of_decide_eq_true passed
        have hle : w.seconds ≤ v.seconds := hle
        exact absurd (hstop bound rfl) (Int.not_le.2 (Int.lt_of_lt_of_le passed hle))
  | case2 w _ next carried _ ih =>
    have forward : w.seconds < next.seconds := lt_of_carry? carried
    by_cases before : v.seconds < next.seconds
    · exact NothingMissed.of_carry hr carried v hle before
    · exact (ih h (Int.not_lt.1 before)).of_le (Int.le_of_lt forward)
  | case3 w _ next carried passed =>
    have passed : WallClock.last.seconds < next.seconds := Int.not_le.1 passed
    have hlast : v.seconds ≤ WallClock.last.seconds := hlast
    exact NothingMissed.of_carry hr carried v hle (Int.lt_of_le_of_lt hlast passed)
  | case4 => cases h
  | case5 w _ carried gone next _ ih =>
    by_cases before : v.seconds < next.seconds
    · exact NothingMissed.of_unit carried gone v hle before
    · exact (ih h (Int.not_lt.1 before)).of_le (le_unit r w)
  | case6 w _ carried gone next passed =>
    have passed : WallClock.last.seconds < next.seconds := Int.not_le.1 passed
    have hlast : v.seconds ≤ WallClock.last.seconds := hlast
    exact NothingMissed.of_unit carried gone v hle (Int.lt_of_le_of_lt hlast passed)

/-! ## Where a search starts -/

theorem startAfter?_eq (r : Rule) (w : WallClock) :
    r.startAfter? w = WallClock.upTo? (w.seconds / r.unit * r.unit + r.unit) := by
  unfold startAfter? unit
  by_cases seconds : r.hasSeconds = true
  · rw [if_pos seconds, if_pos seconds, Int.ediv_one, Int.mul_one]
  · rw [if_neg seconds, if_neg seconds]
    rfl

theorem start_bounds (r : Rule) (s : Int) :
    s < s / r.unit * r.unit + r.unit ∧ s / r.unit * r.unit + r.unit ≤ s + r.unit := by
  rcases r.unit_eq with unit | unit
  · rw [unit]
    omega
  · rw [unit]
    omega

theorem start_le_of_admits (met : r.admits v = true) (hlt : w < v) :
    w.seconds / r.unit * r.unit + r.unit ≤ v.seconds := by
  have whole := unit_dvd_of_admits met
  have hlt : w.seconds < v.seconds := hlt
  rcases r.unit_eq with unit | unit
  · rw [unit]
    omega
  · rw [unit] at whole ⊢
    omega

/-- The start of a search is later, by one unit at most, and leaves out no time that meets the
rule. -/
theorem startAfter?_eq_some (h : r.startAfter? w = some next) :
    w < next ∧ next.seconds ≤ w.seconds + r.unit ∧
      ∀ v, r.admits v = true → w < v → next ≤ v := by
  rw [startAfter?_eq, WallClock.upTo?] at h
  split at h
  · cases h
    obtain ⟨ahead, close⟩ := start_bounds r w.seconds
    exact ⟨ahead, close, fun v => start_le_of_admits⟩
  · cases h

/-- Where a search cannot start, no time is left that meets the rule. -/
theorem startAfter?_eq_none (h : r.startAfter? w = none) (met : r.admits v = true)
    (hlt : w < v) : .last < v := by
  rw [startAfter?_eq, WallClock.upTo?] at h
  split at h
  · cases h
  · rename_i passed
    have reached := start_le_of_admits met hlt
    exact Int.lt_of_lt_of_le (Int.not_le.1 passed) reached

end Rule

end Recurrence
