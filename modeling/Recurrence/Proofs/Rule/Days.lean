import Recurrence.Proofs.BitSet
import Recurrence.Proofs.Calendar
import Recurrence.Rule.Matching

/-!
# The days of a month

What the three ways to bring days into one form put into the month's set
(`BitSet.getLsbD_firstDays`, `BitSet.getLsbD_ofLastDays`, `BitSet.getLsbD_ofWeekdays`). Together
they select a day when its date is one that the rule's four sets select (`Rule.SelectsDay`,
`Rule.getLsbD_daySet`), so a month's set can be told day by day (`Rule.daySet_selectsDay`). The days
of a month are those of the month 400 years earlier (`Rule.daySet_sub_cycle`).
-/

namespace Recurrence

namespace BitSet

theorem getLsbD_firstDays {length i : Nat} (h : length ≤ 32) :
    (firstDays length).getLsbD i = true ↔ i < length := by
  rw [firstDays, BitVec.getLsbD_ushiftRight, BitVec.getLsbD_allOnes, decide_eq_true_eq]
  omega

theorem getLsbD_ofLastDays {lastDays : BitSet 32} {length i : Nat} (h : length ≤ 32) :
    (ofLastDays lastDays length).getLsbD i = true ↔
      lastDays.getLsbD (31 - length + i) = true ∧ i < length := by
  rw [ofLastDays, BitVec.getLsbD_and, BitVec.getLsbD_ushiftRight, Bool.and_eq_true,
    getLsbD_firstDays h]

theorem getLsbD_ofWeekdays {weekdays : BitSet 8} {first i : Nat} :
    (ofWeekdays weekdays first).getLsbD i = true ↔
      i < 32 ∧ weekdays.getLsbD ((first + i) % 7) = true := by
  have turned : ((weekdays.setWidth 7).rotateRight first).getLsbD (i % 7) =
      weekdays.getLsbD ((first + i) % 7) := by
    rw [BitVec.getLsbD_rotateRight]
    have week : i % 7 < 7 := Nat.mod_lt _ (by decide)
    have week' : (first + i) % 7 < 7 := Nat.mod_lt _ (by decide)
    by_cases before : i % 7 < 7 - first % 7
    · have place : first % 7 + i % 7 = (first + i) % 7 := by omega
      rw [decide_eq_true before, cond_true, BitVec.getLsbD_setWidth, place, decide_eq_true week',
        Bool.true_and]
    · have place : i % 7 - (7 - first % 7) = (first + i) % 7 := by omega
      rw [decide_eq_false before, cond_false, BitVec.getLsbD_setWidth, place, decide_eq_true week,
        decide_eq_true week', Bool.true_and, Bool.true_and]
  rw [ofWeekdays, BitVec.getLsbD_setWidth, BitVec.getLsbD_replicate, turned]
  simp only [Bool.and_eq_true, decide_eq_true_eq]
  constructor
  · rintro ⟨inside, _, member⟩
    exact ⟨inside, member⟩
  · rintro ⟨inside, member⟩
    exact ⟨inside, by omega, member⟩

end BitSet

namespace Rule

variable {r : Rule}

/-! ## Single days -/

/-- A rule's sets select a date: it is one of the days or of the days counted from the end, and
falls on a narrowing weekday if there are any; or it falls on one of the weekdays. -/
def SelectsDay (r : Rule) (d : Date) : Prop :=
  (r.days.getLsbD (d.day - 1) = true ∨
      r.lastDays.getLsbD (31 - (daysInMonth d.year d.month + 1 - d.day)) = true) ∧
    (r.strictWeekdays = 0 ∨ r.strictWeekdays.getLsbD d.weekday = true) ∨
  r.weekdays.getLsbD d.weekday = true

instance (r : Rule) (d : Date) : Decidable (r.SelectsDay d) :=
  inferInstanceAs (Decidable (_ ∨ _))

theorem getLsbD_daysOfMonth {length first i : Nat} (h : length ≤ 31) :
    (r.daysOfMonth length first).getLsbD i = true ↔
      i < length ∧
        ((r.days.getLsbD i = true ∨ r.lastDays.getLsbD (31 - length + i) = true) ∧
            (r.strictWeekdays = 0 ∨ r.strictWeekdays.getLsbD ((first + i) % 7) = true) ∨
          r.weekdays.getLsbD ((first + i) % 7) = true) := by
  rw [daysOfMonth, BitVec.getLsbD_and, Bool.and_eq_true, BitSet.getLsbD_firstDays (by omega),
    and_comm]
  apply and_congr_right
  intro inside
  have anchored : ((r.days &&& BitSet.firstDays length) |||
      BitSet.ofLastDays r.lastDays length).getLsbD i = true ↔
      r.days.getLsbD i = true ∨ r.lastDays.getLsbD (31 - length + i) = true := by
    rw [BitVec.getLsbD_or, BitVec.getLsbD_and, Bool.or_eq_true, Bool.and_eq_true,
      BitSet.getLsbD_firstDays (by omega), BitSet.getLsbD_ofLastDays (by omega),
      and_iff_left inside, and_iff_left inside]
  have weekdays : ∀ set : BitSet 8, (BitSet.ofWeekdays set first).getLsbD i = true ↔
      set.getLsbD ((first + i) % 7) = true := by
    intro set
    rw [BitSet.getLsbD_ofWeekdays, and_iff_right (by omega)]
  rw [BitVec.getLsbD_or, Bool.or_eq_true, weekdays]
  apply or_congr_left
  split
  · rename_i free
    rw [anchored, and_iff_left (.inl free)]
  · rename_i narrowed
    rw [BitVec.getLsbD_and, Bool.and_eq_true, anchored, weekdays, or_iff_right narrowed]

/-- A month's set holds the days of the month whose dates the rule selects. -/
theorem getLsbD_daySet {year : Int} {month i : Nat} :
    (r.daySet year month).getLsbD i = true ↔
      Date.IsMonth year month ∧ i < daysInMonth year month ∧ r.SelectsDay ⟨year, month, i + 1⟩ := by
  unfold daySet
  split
  · rename_i calendar
    have bounds : 28 ≤ daysInMonth year month ∧ daysInMonth year month ≤ 31 := by
      obtain ⟨_, _, month_pos, month_le⟩ := calendar
      exact daysInMonth_bounds (by omega) (by omega)
    rw [and_iff_right calendar, Int.toNat_natCast, getLsbD_daysOfMonth bounds.2]
    apply and_congr_right
    intro inside
    have place : 31 - daysInMonth year month + i = 31 - (daysInMonth year month + 1 - (i + 1)) := by
      omega
    have weekday : (weekdayOfDay (Date.dayNumber ⟨year, month, 1⟩) + i) % 7 =
        Date.weekday ⟨year, month, i + 1⟩ := (Date.weekday_succ year month i).symm
    rw [place, weekday]
    rfl
  · rename_i outside
    rw [BitSet.getLsbD_zero]
    exact ⟨nofun, fun h => absurd h.1 outside⟩

/-- No day past the end of the month is selected. -/
theorem lt_of_daySet {year : Int} {month i : Nat} (h : (r.daySet year month).getLsbD i = true) :
    i < daysInMonth year month :=
  (getLsbD_daySet.1 h).2.1

/-- **A month's set is told day by day.** In a month of the calendar it holds a day just when the
month has it and the rule selects its date, and nothing past the end of the month; outside the
calendar it is empty. -/
theorem daySet_selectsDay (r : Rule) (year month : Int) :
    (Date.IsMonth year month →
      (∀ d : Nat, 1 ≤ d → ((r.daySet year month).getLsbD (d - 1) = true ↔
        d ≤ daysInMonth year month.toNat ∧ r.SelectsDay ⟨year, month.toNat, d⟩)) ∧
      ∀ i, daysInMonth year month.toNat ≤ i → (r.daySet year month).getLsbD i = false) ∧
    (¬Date.IsMonth year month → r.daySet year month = 0) := by
  refine ⟨fun calendar => ?_, fun outside => if_neg outside⟩
  obtain ⟨month, rfl⟩ : ∃ m : Nat, month = m := by
    obtain ⟨_, _, month_pos, _⟩ := calendar
    exact ⟨month.toNat, by omega⟩
  rw [Int.toNat_natCast]
  refine ⟨fun d day_pos => ?_, fun i past => ?_⟩
  · rw [getLsbD_daySet, and_iff_right calendar, Nat.sub_add_cancel day_pos]
    have inside : d - 1 < daysInMonth year month ↔ d ≤ daysInMonth year month := by omega
    rw [inside]
  · rw [Bool.eq_false_iff]
    intro member
    exact absurd (lt_of_daySet member) (Nat.not_lt.2 past)

/-- The fifteenth and the last week of the month, on Mondays only, and all Fridays. -/
def mondaysAndFridays : Rule where
  months := 0xfff
  days := 0x4000
  lastDays := 0x7f000000
  weekdays := 0x20
  strictWeekdays := 0x2
  hours := 0x1
  minutes := 0x1
  seconds := 0

/-- In a February of 29 days that began on a Thursday, the last Monday was the 26th. -/
theorem daySet_mondaysAndFridays :
    (mondaysAndFridays.daySet 2024 2).getLsbD 25 = true ∧
      mondaysAndFridays.SelectsDay ⟨2024, 2, 26⟩ ∧ ¬mondaysAndFridays.SelectsDay ⟨2024, 2, 15⟩ ∧
      (mondaysAndFridays.daySet 2024 2).getLsbD 29 = false ∧
      mondaysAndFridays.daySet 2024 13 = 0 := by
  have february := (daySet_selectsDay mondaysAndFridays 2024 2).1 (by decide)
  have monday : (mondaysAndFridays.daySet 2024 2).getLsbD 25 = true := by decide
  have selected := (february.1 26 (by decide)).1 monday
  refine ⟨monday, selected.2, fun thursday => ?_, february.2 29 (by decide),
    (daySet_selectsDay mondaysAndFridays 2024 13).2 (by decide)⟩
  have member := (february.1 15 (by decide)).2 ⟨by decide, thursday⟩
  revert member
  decide

/-! ## The cycle of the calendar -/

theorem daySet_sub_cycle {year : Int} {month : Nat} (first : Date.firstYear ≤ year - 400)
    (last : year ≤ Date.lastYear) : r.daySet (year - 400) month = r.daySet year month := by
  obtain ⟨before, rfl⟩ : ∃ before, year = before + 400 := ⟨year - 400, by omega⟩
  rw [Int.add_sub_cancel] at first ⊢
  unfold daySet Date.IsMonth
  simp only [Int.toNat_natCast]
  have inside : (Date.firstYear ≤ before ∧ before ≤ Date.lastYear ∧ 1 ≤ (month : Int) ∧
      (month : Int) ≤ 12) ↔ (Date.firstYear ≤ before + 400 ∧ before + 400 ≤ Date.lastYear ∧
      1 ≤ (month : Int) ∧ (month : Int) ≤ 12) := by
    omega
  rw [Date.daysInMonth_add_cycle, Date.dayNumber_add_cycle, weekdayOfDay_add_cycle]
  exact ite_congr (propext inside) (fun _ => rfl) (fun _ => rfl)

end Rule

end Recurrence
