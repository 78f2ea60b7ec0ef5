import Recurrence.Calendar.DayCount

/-!
# The order and the cycle of the calendar

A date is found for each day number and counted back (`Date.ofDayNumber_dayNumber`), so the two
forms of a date say the same. Months are counted in one line as well, `Date.monthNumber`; a day
comes before the first of a month exactly when its own month number is smaller
(`Date.lt_dayNumber_first_iff`).

The calendar repeats, weekdays included, after 146097 days, which are 400 years
(`Date.ofDayNumber_add_cycle`, `weekdayOfDay_add_cycle`). Within any 400 years every day of a leap
year falls on every weekday (`Date.exists_leapYear`).
-/

namespace Recurrence

/-! ## Years -/

theorem daysBeforeYear_mono {y y' : Int} (h : y ≤ y') : daysBeforeYear y ≤ daysBeforeYear y' := by
  unfold daysBeforeYear
  omega

theorem yearOfDay_eq_iff {n y : Int} :
    yearOfDay n = y ↔ daysBeforeYear y ≤ n ∧ n < daysBeforeYear (y + 1) := by
  constructor
  · rintro rfl
    exact ⟨daysBeforeYear_yearOfDay_le n, lt_daysBeforeYear_yearOfDay n⟩
  · rintro ⟨lower, upper⟩
    have lower' := daysBeforeYear_yearOfDay_le n
    have upper' := lt_daysBeforeYear_yearOfDay n
    rcases Int.lt_trichotomy (yearOfDay n) y with h | h | h
    · have := daysBeforeYear_mono (Int.add_one_le_of_lt h)
      omega
    · exact h
    · have := daysBeforeYear_mono (Int.add_one_le_of_lt h)
      omega

theorem yearOfDay_mono {n m : Int} (h : n ≤ m) : yearOfDay n ≤ yearOfDay m := by
  have lower := daysBeforeYear_yearOfDay_le n
  have upper := lt_daysBeforeYear_yearOfDay m
  by_cases later : yearOfDay n ≤ yearOfDay m
  · exact later
  · have := daysBeforeYear_mono (Int.add_one_le_of_lt (Int.not_le.1 later))
    omega

/-- The days of 400 years. -/
def cycleDays : Int := 146097

theorem daysBeforeYear_add_cycle (y : Int) :
    daysBeforeYear (y + 400) = daysBeforeYear y + cycleDays := by
  unfold daysBeforeYear cycleDays
  omega

theorem isLeapYear_add_cycle (y : Int) : isLeapYear (y + 400) = isLeapYear y := by
  have four : (y + 400) % 4 = y % 4 := by omega
  have hundred : (y + 400) % 100 = y % 100 := by omega
  unfold isLeapYear
  rw [four, hundred, Int.add_emod_right]

theorem yearOfDay_add_cycle (n : Int) : yearOfDay (n + cycleDays) = yearOfDay n + 400 := by
  rw [yearOfDay_eq_iff, Int.add_right_comm, daysBeforeYear_add_cycle, daysBeforeYear_add_cycle]
  have lower := daysBeforeYear_yearOfDay_le n
  have upper := lt_daysBeforeYear_yearOfDay n
  omega

/-! ## Months -/

theorem totalLength_take_succ (lengths : List Nat) (i : Nat) :
    totalLength (lengths.take (i + 1)) = totalLength (lengths.take i) + lengths[i]?.getD 0 := by
  induction lengths generalizing i with
  | nil => simp
  | cons length rest ih =>
    cases i with
    | zero => simp [totalLength]
    | succ i =>
      rw [List.take_succ_cons, List.take_succ_cons, totalLength, totalLength, ih,
        List.getElem?_cons_succ]
      omega

theorem locateIn_eq {lengths : List Nat} {i r : Nat} (h : r < lengths[i]?.getD 0) :
    locateIn lengths (totalLength (lengths.take i) + r) = (i, r) := by
  induction lengths generalizing i with
  | nil => simp at h
  | cons length rest ih =>
    cases i with
    | zero =>
      have inside : r < length := by simpa using h
      rw [locateIn, if_pos (by simpa [totalLength] using inside)]
      simp [totalLength]
    | succ i =>
      have inside : r < rest[i]?.getD 0 := by simpa using h
      rw [List.take_succ_cons, totalLength, locateIn, if_neg (by omega), Nat.add_assoc,
        Nat.add_sub_cancel_left, ih inside]

theorem daysBeforeMonth_succ {year : Int} {month : Nat} (h : 1 ≤ month) :
    daysBeforeMonth year (month + 1) = daysBeforeMonth year month + daysInMonth year month := by
  obtain ⟨month, rfl⟩ := Nat.exists_eq_add_of_le' h
  rw [daysBeforeMonth, daysBeforeMonth, daysInMonth, Nat.add_sub_cancel, Nat.add_sub_cancel,
    totalLength_take_succ]

theorem daysBeforeMonth_mono {year : Int} {month month' : Nat} (h : month ≤ month') :
    daysBeforeMonth year month ≤ daysBeforeMonth year month' :=
  totalLength_take_le _ (Nat.sub_le_sub_right h 1)

theorem daysBeforeMonth_thirteen (year : Int) : daysBeforeMonth year 13 = daysInYear year := by
  unfold daysBeforeMonth daysInYear
  rfl

theorem daysInMonth_bounds {year : Int} {month : Nat} (hpos : 1 ≤ month) (hle : month ≤ 12) :
    28 ≤ daysInMonth year month ∧ daysInMonth year month ≤ 31 := by
  have table : ∀ leap : Bool, ∀ i < 12,
      28 ≤ (monthLengths leap)[i]?.getD 0 ∧ (monthLengths leap)[i]?.getD 0 ≤ 31 := by decide
  exact table (isLeapYear year) (month - 1) (by omega)

/-! ## Dates -/

namespace Date

/-- A month and day that some year's calendar has; the year itself is not bounded. -/
def IsProper (d : Date) : Prop :=
  1 ≤ d.month ∧ d.month ≤ 12 ∧ 1 ≤ d.day ∧ d.day ≤ daysInMonth d.year d.month

theorem isProper_ofDayNumber (n : Int) : (ofDayNumber n).IsProper := by
  have found := locateIn_spec (position_lt (n + epoch))
  have months : (monthLengths (isLeapYear (yearOfDay (n + epoch)))).length = 12 := rfl
  rw [totalLength_take_succ] at found
  simp only [IsProper, ofDayNumber, daysInMonth, Nat.add_sub_cancel]
  omega

/-- The date of a day is the only one that counts to it. -/
theorem ofDayNumber_dayNumber {d : Date} (h : d.IsProper) : ofDayNumber d.dayNumber = d := by
  obtain ⟨month_pos, month_le, day_pos, day_le⟩ := h
  have start : daysBeforeMonth d.year (d.month + 1) ≤ daysInYear d.year := by
    rw [← daysBeforeMonth_thirteen]
    exact daysBeforeMonth_mono (by omega)
  rw [daysBeforeMonth_succ month_pos] at start
  have count : d.dayNumber + epoch =
      daysBeforeYear d.year + (daysBeforeMonth d.year d.month + (d.day - 1) : Nat) := by
    unfold dayNumber
    omega
  have year : yearOfDay (d.dayNumber + epoch) = d.year := by
    rw [yearOfDay_eq_iff, daysBeforeYear_succ]
    omega
  have inside : d.day - 1 < (monthLengths (isLeapYear d.year))[d.month - 1]?.getD 0 := by
    unfold daysInMonth at day_le
    omega
  have found := locateIn_eq inside
  have rest : (d.dayNumber + epoch - daysBeforeYear d.year).toNat =
      daysBeforeMonth d.year d.month + (d.day - 1) := by omega
  unfold ofDayNumber
  simp only [year, rest]
  unfold daysBeforeMonth
  rw [found]
  simp only [Nat.sub_add_cancel month_pos, Nat.sub_add_cancel day_pos]

/-- The months from year zero on, counted in one line. -/
def monthNumber (d : Date) : Int := 12 * d.year + d.month

theorem ofDayNumber_add {n : Int} {k : Nat}
    (h : (ofDayNumber n).day + k ≤ daysInMonth (ofDayNumber n).year (ofDayNumber n).month) :
    ofDayNumber (n + k) =
      ⟨(ofDayNumber n).year, (ofDayNumber n).month, (ofDayNumber n).day + k⟩ := by
  obtain ⟨month_pos, month_le, day_pos, _⟩ := isProper_ofDayNumber n
  have moved : n + k =
      dayNumber ⟨(ofDayNumber n).year, (ofDayNumber n).month, (ofDayNumber n).day + k⟩ := by
    have same := dayNumber_ofDayNumber n
    unfold dayNumber at same ⊢
    simp only
    omega
  rw [moved]
  exact ofDayNumber_dayNumber ⟨month_pos, month_le, Nat.le_add_right_of_le day_pos, h⟩

/-- A month begins where the one before it ends, also over the turn of the year. -/
theorem dayNumber_first_next {y : Int} {m : Nat} (hpos : 1 ≤ m) (hle : m ≤ 12) :
    dayNumber (if m = 12 then ⟨y + 1, 1, 1⟩ else ⟨y, m + 1, 1⟩) =
      dayNumber ⟨y, m, 1⟩ + daysInMonth y m := by
  have next : daysBeforeMonth y (m + 1) = daysBeforeMonth y m + daysInMonth y m :=
    daysBeforeMonth_succ hpos
  split
  · rename_i last
    subst last
    rw [daysBeforeMonth_thirteen] at next
    have year := daysBeforeYear_succ y
    have first : daysBeforeMonth (y + 1) 1 = 0 := rfl
    unfold dayNumber
    simp only [first]
    omega
  · unfold dayNumber
    simp only [next]
    omega

theorem dayNumber_first_mono {y y' : Int} {m m' : Nat} (hpos : 1 ≤ m) (hle : m ≤ 12)
    (hpos' : 1 ≤ m') (hle' : m' ≤ 12) (h : 12 * y + m ≤ 12 * y' + m') :
    dayNumber ⟨y, m, 1⟩ ≤ dayNumber ⟨y', m', 1⟩ := by
  unfold dayNumber
  simp only
  by_cases same : y = y'
  · subst same
    have : daysBeforeMonth y m ≤ daysBeforeMonth y m' := daysBeforeMonth_mono (by omega)
    omega
  · have inside : daysBeforeMonth y m ≤ daysBeforeMonth y 13 := daysBeforeMonth_mono (by omega)
    rw [daysBeforeMonth_thirteen] at inside
    have year := daysBeforeYear_succ y
    have later : daysBeforeYear (y + 1) ≤ daysBeforeYear y' := daysBeforeYear_mono (by omega)
    omega

/-- A day comes before the first of a month when its own month does. -/
theorem lt_dayNumber_first_iff {n y : Int} {m : Nat} (hpos : 1 ≤ m) (hle : m ≤ 12) :
    n < dayNumber ⟨y, m, 1⟩ ↔ (ofDayNumber n).monthNumber < 12 * y + m := by
  obtain ⟨month_pos, month_le, day_pos, day_le⟩ := isProper_ofDayNumber n
  have same := dayNumber_ofDayNumber n
  have first : n = dayNumber ⟨(ofDayNumber n).year, (ofDayNumber n).month, 1⟩ +
      ((ofDayNumber n).day - 1) := by
    unfold dayNumber at same ⊢
    simp only
    omega
  unfold monthNumber
  constructor
  · intro h
    by_cases before : 12 * (ofDayNumber n).year + (ofDayNumber n).month < 12 * y + m
    · exact before
    · have := dayNumber_first_mono hpos hle month_pos month_le (Int.not_lt.1 before)
      omega
  · intro h
    have next := dayNumber_first_next (y := (ofDayNumber n).year) month_pos month_le
    split at next
    · have : dayNumber ⟨(ofDayNumber n).year + 1, 1, 1⟩ ≤ dayNumber ⟨y, m, 1⟩ :=
        dayNumber_first_mono (by omega) (by omega) hpos hle (by omega)
      omega
    · have : dayNumber ⟨(ofDayNumber n).year, (ofDayNumber n).month + 1, 1⟩ ≤
          dayNumber ⟨y, m, 1⟩ :=
        dayNumber_first_mono (by omega) (by omega) hpos hle (by omega)
      omega

theorem monthNumber_mono {n m : Int} (h : n ≤ m) :
    (ofDayNumber n).monthNumber ≤ (ofDayNumber m).monthNumber := by
  obtain ⟨month_pos, month_le, _⟩ := isProper_ofDayNumber n
  have start : dayNumber ⟨(ofDayNumber n).year, (ofDayNumber n).month, 1⟩ ≤ n := by
    apply Int.not_lt.1
    rw [lt_dayNumber_first_iff month_pos month_le]
    exact Int.lt_irrefl _
  by_cases later : (ofDayNumber n).monthNumber ≤ (ofDayNumber m).monthNumber
  · exact later
  · have := (lt_dayNumber_first_iff month_pos month_le).2 (Int.not_le.1 later)
    omega

theorem year_mono {n m : Int} (h : n ≤ m) : (ofDayNumber n).year ≤ (ofDayNumber m).year :=
  yearOfDay_mono (Int.add_le_add_right h epoch)

/-! ## The cycle of 400 years -/

theorem ofDayNumber_add_cycle (n : Int) :
    ofDayNumber (n + cycleDays) =
      ⟨(ofDayNumber n).year + 400, (ofDayNumber n).month, (ofDayNumber n).day⟩ := by
  unfold ofDayNumber
  simp only [Int.add_right_comm n cycleDays epoch, yearOfDay_add_cycle, isLeapYear_add_cycle,
    daysBeforeYear_add_cycle, Int.add_sub_add_right]

theorem dayNumber_add_cycle (y : Int) (m d : Nat) :
    dayNumber ⟨y + 400, m, d⟩ = dayNumber ⟨y, m, d⟩ + cycleDays := by
  unfold dayNumber daysBeforeMonth
  simp only [isLeapYear_add_cycle, daysBeforeYear_add_cycle]
  omega

theorem daysInMonth_add_cycle (y : Int) (m : Nat) : daysInMonth (y + 400) m = daysInMonth y m := by
  unfold daysInMonth
  rw [isLeapYear_add_cycle]

end Date

theorem weekdayOfDay_add_cycle (n : Int) : weekdayOfDay (n + cycleDays) = weekdayOfDay n := by
  have week : (n + cycleDays + 4) % 7 = (n + 4) % 7 := by
    unfold cycleDays
    omega
  unfold weekdayOfDay
  rw [week]

/-! ## Weekdays of dates -/

/-- Seven leap years follow each other at the beginning of a cycle, each five weekdays on from
the one before it. -/
theorem leapYear_of_cycle (q : Int) {j : Int} (hj : 0 ≤ j) (hj' : j < 7) :
    isLeapYear (400 * q + 4 * j) = true ∧
      daysBeforeYear (400 * q + 4 * j) = cycleDays * q + 1461 * j - 366 := by
  constructor
  · simp only [isLeapYear, decide_eq_true_eq]
    omega
  · unfold daysBeforeYear cycleDays
    omega

namespace Date

/-- The weekday of a date, Sunday being 0. -/
def weekday (d : Date) : Nat := weekdayOfDay d.dayNumber

/-- The days of a month go through the week. -/
theorem weekday_succ (y : Int) (m i : Nat) :
    weekday ⟨y, m, i + 1⟩ = (weekday ⟨y, m, 1⟩ + i) % 7 := by
  unfold weekday weekdayOfDay dayNumber
  simp only
  omega

/-- Within any 400 years, each day of a leap year falls on each weekday. -/
theorem exists_leapYear (first : Int) (month day : Nat) {w : Nat} (hw : w < 7) :
    ∃ year, first ≤ year ∧ year ≤ first + 399 ∧ isLeapYear year = true ∧
      weekday ⟨year, month, day⟩ = w := by
  let before : Int := totalLength ((monthLengths true).take (month - 1))
  -- leap years move on by five weekdays, and three times five is one more than two weeks
  let j : Int := 3 * (w - (before + day - 1 - epoch + 4 - 366)) % 7
  let q : Int := (first - 4 * j + 399) / 400
  obtain ⟨leap, days⟩ := leapYear_of_cycle q (j := j) (by omega) (by omega)
  refine ⟨400 * q + 4 * j, by omega, by omega, leap, ?_⟩
  have months : daysBeforeMonth (400 * q + 4 * j) month = before := by
    rw [daysBeforeMonth, leap]
  unfold weekday weekdayOfDay dayNumber
  simp only [days, months]
  unfold cycleDays
  omega

end Date

end Recurrence
