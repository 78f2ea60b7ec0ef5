import Recurrence.Calendar.WallClock

/-!
# Dates and day numbers

The laws that tie the two forms of a date together: the year and the month that are found for a day
number are those that hold it (`daysBeforeYear_yearOfDay_le`, `lt_daysBeforeYear_yearOfDay`,
`locateIn_spec`), so counting the days of the date that was found gives the number back
(`Date.dayNumber_ofDayNumber`).
-/

namespace Recurrence

/-! ## Years -/

/-- The year that is found for a day does not begin after it. -/
theorem daysBeforeYear_yearOfDay_le (n : Int) : daysBeforeYear (yearOfDay n) ≤ n := by
  unfold yearOfDay daysBeforeYear
  simp only []
  split
  · omega
  · split <;> omega

/-- The year that is found for a day does not end before it. -/
theorem lt_daysBeforeYear_yearOfDay (n : Int) : n < daysBeforeYear (yearOfDay n + 1) := by
  unfold yearOfDay daysBeforeYear
  simp only []
  split
  · omega
  · split <;> omega

/-- A year is as long as its months together. -/
theorem daysBeforeYear_succ (year : Int) :
    daysBeforeYear (year + 1) = daysBeforeYear year + daysInYear year := by
  unfold daysInYear
  have leap : isLeapYear year = true ↔ year % 4 = 0 ∧ (year % 100 ≠ 0 ∨ year % 400 = 0) := by
    simp [isLeapYear]
  cases h : isLeapYear year
  · have : ¬(year % 4 = 0 ∧ (year % 100 ≠ 0 ∨ year % 400 = 0)) := by simpa [h] using leap
    have sum : totalLength (monthLengths false) = 365 := rfl
    simp only [daysBeforeYear, sum]
    omega
  · have : year % 4 = 0 ∧ (year % 100 ≠ 0 ∨ year % 400 = 0) := leap.1 h
    have sum : totalLength (monthLengths true) = 366 := rfl
    simp only [daysBeforeYear, sum]
    omega

/-! ## Months -/

/-- A position inside a row of blocks is found in the block that holds it. -/
theorem locateIn_spec {lengths : List Nat} {k : Nat} (h : k < totalLength lengths) :
    totalLength (lengths.take (locateIn lengths k).1) + (locateIn lengths k).2 = k ∧
      k < totalLength (lengths.take ((locateIn lengths k).1 + 1)) ∧
      (locateIn lengths k).1 < lengths.length := by
  induction lengths generalizing k with
  | nil => simp [totalLength] at h
  | cons length rest ih =>
    unfold locateIn
    split
    · simp_all [totalLength]
    · rename_i hk
      simp only [totalLength] at h
      have := ih (k := k - length) (by omega)
      simp only [List.take_succ_cons, totalLength, List.length_cons]
      omega

theorem totalLength_take_le (lengths : List Nat) {i j : Nat} (h : i ≤ j) :
    totalLength (lengths.take i) ≤ totalLength (lengths.take j) := by
  induction lengths generalizing i j with
  | nil => simp
  | cons length rest ih =>
    cases i with
    | zero => simp [totalLength]
    | succ i =>
      cases j with
      | zero => omega
      | succ j =>
        have := ih (i := i) (j := j) (by omega)
        simp only [List.take_succ_cons, totalLength]
        omega

/-! ## Dates -/

namespace Date

/-- The position of a day within its year is inside the year. -/
theorem position_lt (n : Int) :
    (n - daysBeforeYear (yearOfDay n)).toNat < daysInYear (yearOfDay n) := by
  have lower := daysBeforeYear_yearOfDay_le n
  have upper := lt_daysBeforeYear_yearOfDay n
  rw [daysBeforeYear_succ] at upper
  omega

/-- Counting the days of the date of a day gives the day back. -/
theorem dayNumber_ofDayNumber (n : Int) : (ofDayNumber n).dayNumber = n := by
  have lower := daysBeforeYear_yearOfDay_le (n + epoch)
  have found := locateIn_spec (position_lt (n + epoch))
  simp only [ofDayNumber, dayNumber, daysBeforeMonth, Nat.add_sub_cancel]
  omega

/-- A later month of the same year begins after any day of an earlier one. -/
theorem lt_dayNumber_of_month_lt {n : Int} {month day : Nat} (h : (ofDayNumber n).month < month)
    (hday : 1 ≤ day) : n < dayNumber ⟨(ofDayNumber n).year, month, day⟩ := by
  have lower := daysBeforeYear_yearOfDay_le (n + epoch)
  have found := locateIn_spec (position_lt (n + epoch))
  simp only [ofDayNumber] at h ⊢
  simp only [dayNumber, daysBeforeMonth]
  have later := totalLength_take_le (monthLengths (isLeapYear (yearOfDay (n + epoch))))
    (show _ ≤ month - 1 from Nat.le_sub_one_of_lt h)
  omega

/-- A later year begins after any day of an earlier one. -/
theorem lt_dayNumber_next_year {n : Int} {month day : Nat} (hday : 1 ≤ day) :
    n < dayNumber ⟨(ofDayNumber n).year + 1, month, day⟩ := by
  have upper := lt_daysBeforeYear_yearOfDay (n + epoch)
  simp only [ofDayNumber, dayNumber]
  omega

/-- A later day of the same month comes after an earlier one. -/
theorem lt_dayNumber_of_day_lt {n : Int} {day : Nat} (h : (ofDayNumber n).day < day) :
    n < dayNumber ⟨(ofDayNumber n).year, (ofDayNumber n).month, day⟩ := by
  have same := dayNumber_ofDayNumber n
  simp only [dayNumber] at same ⊢
  omega

end Date

end Recurrence
