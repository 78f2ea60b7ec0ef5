import Recurrence.Proofs.Rule.Days
import Recurrence.Proofs.Rule.WellFormed

/-!
# Rules that can be met

The test for rules that can never be met tries each admitted month at its longest and looks at no
weekday. It passes every rule that is met (`Rule.isFeasible_of_admitsDate`), because a shorter month
has no day, counted from either end, that the longest one lacks. And every rule that it passes is
met within any 400 years (`Rule.exists_admitsDate`): in those years each day of a leap year falls on
each weekday. So the test is exact (`Rule.isFeasible_iff_exists_date`).
-/

namespace Recurrence

/-! ## The longest months -/

/-- The length of a month in a leap year. -/
def longestMonth (month : Nat) : Nat :=
  (monthLengths true)[month - 1]?.getD 0

theorem daysInMonth_of_isLeapYear {year : Int} {month : Nat} (h : isLeapYear year = true) :
    daysInMonth year month = longestMonth month := by
  rw [daysInMonth, h, longestMonth]

theorem longestMonth_bounds {month : Nat} (hpos : 1 ≤ month) (hle : month ≤ 12) :
    28 ≤ longestMonth month ∧ longestMonth month ≤ 31 := by
  have leap : isLeapYear 4 = true := rfl
  rw [← daysInMonth_of_isLeapYear leap]
  exact daysInMonth_bounds hpos hle

theorem daysInMonth_le_longestMonth (year : Int) {month : Nat} (hpos : 1 ≤ month)
    (hle : month ≤ 12) : daysInMonth year month ≤ longestMonth month := by
  have table : ∀ leap : Bool, ∀ i < 12,
      (monthLengths leap)[i]?.getD 0 ≤ (monthLengths true)[i]?.getD 0 := by decide
  exact table (isLeapYear year) (month - 1) (by omega)

namespace Rule

variable {r : Rule}

/-! ## The test -/

/-- The `i`-th day of a month at its longest is one of a rule's days or of its days from the end. -/
def Anchors (r : Rule) (month i : Nat) : Prop :=
  i < longestMonth month ∧
    (r.days.getLsbD i = true ∨ r.lastDays.getLsbD (31 - longestMonth month + i) = true)

theorem isFeasible_of_weekdays (h : r.weekdays ≠ 0) : r.isFeasible = true ↔ r.months ≠ 0 := by
  rw [isFeasible, if_pos h, decide_eq_true_eq]

theorem isFeasible_iff_anchors (h : r.weekdays = 0) :
    r.isFeasible = true ↔
      ∃ month, 1 ≤ month ∧ month ≤ 12 ∧ r.months.getLsbD (month - 1) = true ∧
        ∃ i, r.Anchors month i := by
  have months : (monthLengths true).length = 12 := rfl
  have anchors : ∀ month, longestMonth month ≤ 31 →
      ((r.days &&& BitSet.firstDays (longestMonth month)) |||
        BitSet.ofLastDays r.lastDays (longestMonth month) ≠ 0 ↔ ∃ i, r.Anchors month i) := by
    intro month short
    rw [BitSet.ne_zero_iff]
    apply exists_congr
    intro i
    rw [BitVec.getLsbD_or, BitVec.getLsbD_and, Bool.or_eq_true, Bool.and_eq_true,
      BitSet.getLsbD_firstDays (by omega), BitSet.getLsbD_ofLastDays (by omega), ← or_and_right,
      and_comm]
    rfl
  rw [isFeasible, if_neg (not_not_intro h), List.any_eq_true]
  constructor
  · intro h
    obtain ⟨⟨length, index⟩, listed, passed⟩ := h
    rw [List.mem_zipIdx_iff_getElem?] at listed
    obtain ⟨inside, _⟩ := List.getElem?_eq_some_iff.1 listed
    have longest : longestMonth (index + 1) = length := by
      rw [longestMonth, Nat.add_sub_cancel, listed, Option.getD_some]
    have short : longestMonth (index + 1) ≤ 31 :=
      (longestMonth_bounds (Nat.le_add_left 1 index) (by omega)).2
    rw [Bool.and_eq_true, decide_eq_true_eq] at passed
    obtain ⟨admitted, some⟩ := passed
    simp only [← longest] at some
    exact ⟨index + 1, by omega, by omega, admitted, (anchors _ short).1 some⟩
  · intro h
    obtain ⟨month, month_pos, month_le, admitted, some⟩ := h
    have short := (longestMonth_bounds month_pos month_le).2
    refine ⟨(longestMonth month, month - 1), ?_, ?_⟩
    · rw [List.mem_zipIdx_iff_getElem?, longestMonth, List.getElem?_eq_getElem (by omega),
        Option.getD_some]
    · rw [Bool.and_eq_true, decide_eq_true_eq]
      exact ⟨admitted, (anchors month short).2 some⟩

/-! ## Rules that are met -/

theorem admitsDate_iff {d : Date} (hd : d.IsValid) :
    r.admitsDate d = true ↔ r.months.getLsbD (d.month - 1) = true ∧ r.SelectsDay d := by
  obtain ⟨calendar, day_pos, day_le⟩ := hd
  obtain ⟨year, month, day⟩ := d
  simp only at calendar day_pos day_le
  rw [admitsDate, Bool.and_eq_true, getLsbD_daySet, and_iff_right calendar,
    and_iff_right (show day - 1 < daysInMonth year month by omega), Nat.sub_add_cancel day_pos]

/-- The test for rules that can never be met passes every rule that is met. -/
theorem isFeasible_of_admitsDate {d : Date} (proper : d.IsProper) (met : r.admitsDate d = true) :
    r.isFeasible = true := by
  obtain ⟨month_pos, month_le, day_pos, day_le⟩ := proper
  rw [admitsDate, Bool.and_eq_true] at met
  obtain ⟨month, day⟩ := met
  by_cases weekdays : r.weekdays = 0
  · have longer := daysInMonth_le_longestMonth d.year month_pos month_le
    have short := (longestMonth_bounds month_pos month_le).2
    rw [isFeasible_iff_anchors weekdays]
    refine ⟨d.month, month_pos, month_le, month, ?_⟩
    have selected := (getLsbD_daySet.1 day).2.2
    rw [Nat.sub_add_cancel day_pos] at selected
    rcases selected with ⟨anchored, _⟩ | added
    · rcases anchored with fromStart | fromEnd
      · exact ⟨d.day - 1, by omega, .inl fromStart⟩
      · -- the same distance from the end is a later day of the longer month
        have place : 31 - (daysInMonth d.year d.month + 1 - d.day) =
            31 - longestMonth d.month +
              (longestMonth d.month - daysInMonth d.year d.month + (d.day - 1)) := by omega
        rw [place] at fromEnd
        exact ⟨_, by omega, .inr fromEnd⟩
    · rw [weekdays, BitSet.getLsbD_zero] at added
      cases added
  · rw [isFeasible_of_weekdays weekdays, BitSet.ne_zero_iff]
    exact ⟨_, month⟩

/-! ## Rules that can be met -/

/-- A rule that passes the test selects some day of the leap years in which the day falls on some
weekday. -/
theorem exists_selectsDay (hr : r.IsWellFormed) (h : r.isFeasible = true) :
    ∃ month day w, (1 ≤ month ∧ month ≤ 12) ∧ (1 ≤ day ∧ day ≤ longestMonth month) ∧ w < 7 ∧
      r.months.getLsbD (month - 1) = true ∧
      ∀ year, isLeapYear year = true → Date.weekday ⟨year, month, day⟩ = w →
        r.SelectsDay ⟨year, month, day⟩ := by
  by_cases weekdays : r.weekdays = 0
  · obtain ⟨month, month_pos, month_le, admitted, i, inside, anchored⟩ :=
      (isFeasible_iff_anchors weekdays).1 h
    have narrowed : ∃ w < 7, r.strictWeekdays = 0 ∨ r.strictWeekdays.getLsbD w = true := by
      by_cases free : r.strictWeekdays = 0
      · exact ⟨0, by decide, .inl free⟩
      · obtain ⟨w, member⟩ := BitSet.ne_zero_iff.1 free
        exact ⟨w, hr.strictWeekdays w member, .inr member⟩
    obtain ⟨w, hw, narrowing⟩ := narrowed
    have short := (longestMonth_bounds month_pos month_le).2
    refine ⟨month, i + 1, w, ⟨month_pos, month_le⟩, ⟨by omega, by omega⟩, hw, admitted, ?_⟩
    intro year leap falls
    have place : 31 - (daysInMonth year month + 1 - (i + 1)) = 31 - longestMonth month + i := by
      rw [daysInMonth_of_isLeapYear leap]
      omega
    refine .inl ⟨?_, ?_⟩
    · rw [place]
      exact anchored
    · rw [falls]
      exact narrowing
  · obtain ⟨i, admitted⟩ := BitSet.ne_zero_iff.1 hr.months_ne
    obtain ⟨w, member⟩ := BitSet.ne_zero_iff.1 weekdays
    have month_lt := hr.months i admitted
    have long : 28 ≤ longestMonth (i + 1) :=
      (longestMonth_bounds (Nat.le_add_left 1 i) (by omega)).1
    refine ⟨i + 1, 1, w, ⟨by omega, by omega⟩, ⟨Nat.le_refl _, by omega⟩, hr.weekdays w member,
      admitted, ?_⟩
    intro year _ falls
    refine .inr ?_
    rw [falls]
    exact member

/-- A rule that passes the test is met within any 400 years of the calendar. -/
theorem exists_admitsDate (hr : r.IsWellFormed) (h : r.isFeasible = true) {first : Int}
    (hfirst : Date.firstYear ≤ first) (hlast : first + 399 ≤ Date.lastYear) :
    ∃ d : Date, d.IsValid ∧ (first ≤ d.year ∧ d.year ≤ first + 399) ∧ r.admitsDate d = true := by
  obtain ⟨month, day, w, ⟨month_pos, month_le⟩, ⟨day_pos, day_le⟩, hw, admitted, selects⟩ :=
    exists_selectsDay hr h
  obtain ⟨year, lower, upper, leap, falls⟩ := Date.exists_leapYear first month day hw
  rw [← daysInMonth_of_isLeapYear leap] at day_le
  have calendar : Date.IsMonth year month := ⟨by omega, by omega, by omega, by omega⟩
  have valid : Date.IsValid ⟨year, month, day⟩ := ⟨calendar, day_pos, day_le⟩
  exact ⟨_, valid, ⟨lower, upper⟩, (admitsDate_iff valid).2 ⟨admitted, selects year leap falls⟩⟩

/-- **The test for rules that can never be met is exact.** It passes a rule just when some date of
the calendar is in one of the rule's months and in its set of days for that month; and then each 400
years of the calendar have such a date. -/
theorem isFeasible_iff_exists_date (hr : r.IsConstructible) :
    (r.isFeasible = true ↔ ∃ d : Date, d.IsValid ∧ r.months.getLsbD (d.month - 1) = true ∧
      (r.daySet d.year d.month).getLsbD (d.day - 1) = true) ∧
    (r.isFeasible = true → ∀ first : Int, Date.firstYear ≤ first → first + 399 ≤ Date.lastYear →
      ∃ d : Date, d.IsValid ∧ (first ≤ d.year ∧ d.year ≤ first + 399) ∧
        r.months.getLsbD (d.month - 1) = true ∧
        (r.daySet d.year d.month).getLsbD (d.day - 1) = true) := by
  have admits : ∀ d, r.admitsDate d = true ↔ r.months.getLsbD (d.month - 1) = true ∧
      (r.daySet d.year d.month).getLsbD (d.day - 1) = true :=
    fun d => Bool.and_eq_true_iff
  simp only [← admits]
  refine ⟨⟨fun h => ?_, fun h => ?_⟩, fun h first hfirst hlast =>
    exists_admitsDate hr.isWellFormed h hfirst hlast⟩
  · obtain ⟨d, valid, _, met⟩ :=
      exists_admitsDate hr.isWellFormed h (Int.le_refl Date.firstYear) (by decide)
    exact ⟨d, valid, met⟩
  · obtain ⟨d, ⟨⟨_, _, month_pos, month_le⟩, day_pos, day_le⟩, met⟩ := h
    exact isFeasible_of_admitsDate ⟨by omega, by omega, day_pos, day_le⟩ met

/-- The 29th day from the end of a February, if it is a Monday: the first of February of some leap
years. -/
def leapMonday : Rule where
  months := 0x2
  days := 0
  lastDays := 0x4
  weekdays := 0
  strictWeekdays := 0x2
  hours := 0x1
  minutes := 0x1
  seconds := 0

theorem isConstructible_leapMonday : leapMonday.IsConstructible :=
  .inr ⟨{}, "0 0 ^29 2 &mon", rfl⟩

/-- There is such a Monday even before the first century, and in the last 400 years. -/
theorem isFeasible_leapMonday :
    leapMonday.isFeasible = true ∧
      (∃ d : Date, d.IsValid ∧ (-9999 ≤ d.year ∧ d.year ≤ -9999 + 399) ∧
        leapMonday.months.getLsbD (d.month - 1) = true ∧
        (leapMonday.daySet d.year d.month).getLsbD (d.day - 1) = true) ∧
      ∃ d : Date, d.IsValid ∧ (9600 ≤ d.year ∧ d.year ≤ 9600 + 399) ∧
        leapMonday.months.getLsbD (d.month - 1) = true ∧
        (leapMonday.daySet d.year d.month).getLsbD (d.day - 1) = true := by
  obtain ⟨feasible, within⟩ := isFeasible_iff_exists_date isConstructible_leapMonday
  have passes : leapMonday.isFeasible = true :=
    feasible.2 ⟨⟨2044, 2, 1⟩, by decide, by decide, by decide⟩
  exact ⟨passes, within passes (-9999) (by decide) (by decide),
    within passes 9600 (by decide) (by decide)⟩

end Rule

end Recurrence
