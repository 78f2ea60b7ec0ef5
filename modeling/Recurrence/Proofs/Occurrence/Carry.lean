import Recurrence.Occurrence.Carry
import Recurrence.Proofs.Rule.Days
import Recurrence.Proofs.Rule.WellFormed

/-!
# Carries pass over nothing

Of the five carries each passes over times only that its own field does not admit; the one of the
hours may also pass over the rest of a day, from an hour on that the zone skips. Together: where no
field carries, the time meets the rule (`Rule.carry?_eq_none_iff`), and a time that a carry passes
over and that meets the rule is given up for a skipped hour (`Rule.givesUp_of_carry?`).
-/

namespace Recurrence

namespace WallClock

variable {w v : WallClock}

/-! ## Reading a time off the seconds -/

theorem seconds_eq (w : WallClock) :
    w.seconds = 86400 * w.dayNumber + 3600 * w.hour + 60 * w.minute + w.second := by
  unfold dayNumber hour minute second secondOfDay
  omega

theorem hour_lt (w : WallClock) : w.hour < 24 := by
  unfold hour secondOfDay
  omega

theorem minute_lt (w : WallClock) : w.minute < 60 := by
  unfold minute
  omega

theorem second_lt (w : WallClock) : w.second < 60 := by
  unfold second
  omega

theorem dayNumber_mono (h : w ≤ v) : w.dayNumber ≤ v.dayNumber := by
  have h : w.seconds ≤ v.seconds := h
  unfold dayNumber
  omega

theorem lt_midnight_iff {n : Int} : v < midnight n ↔ v.dayNumber < n := by
  unfold midnight dayNumber
  constructor
  · intro h
    have h : v.seconds < 86400 * n := h
    omega
  · intro h
    refine Int.lt_of_lt_of_le (?_ : v.seconds < 86400 * (v.seconds / 86400 + 1)) ?_
    · omega
    · exact Int.mul_le_mul_of_nonneg_left h (by decide)

theorem isProper_date (w : WallClock) : w.date.IsProper :=
  Date.isProper_ofDayNumber w.dayNumber

/-- The dates of the days that follow within a month. -/
theorem date_eq_of_lt {n : Nat} (hle : w ≤ v) (hlt : v.dayNumber < w.dayNumber + n)
    (inside : w.date.day + n ≤ daysInMonth w.date.year w.date.month + 1) :
    ∃ k < n, v.date = ⟨w.date.year, w.date.month, w.date.day + k⟩ := by
  have order := dayNumber_mono hle
  obtain ⟨k, hk⟩ := Int.eq_ofNat_of_zero_le (Int.sub_nonneg_of_le order)
  refine ⟨k, by omega, ?_⟩
  have moved : v.dayNumber = w.dayNumber + k := by omega
  rw [date, moved]
  exact Date.ofDayNumber_add (by unfold date at inside; omega)

theorem startOfHour_atHour (w : WallClock) : (w.atHour w.hour).startOfHour = w.startOfHour := by
  have split := w.seconds_eq
  have minute := w.minute_lt
  have second := w.second_lt
  unfold startOfHour atHour
  rw [mk.injEq]
  simp only
  omega

theorem nextDay_eq (w : WallClock) : w.nextDay = w.atHour 24 := by
  unfold nextDay midnight atHour
  rw [mk.injEq]
  omega

theorem lt_atHour_succ (w : WallClock) : w < w.atHour (w.hour + 1) := by
  have split := w.seconds_eq
  have minute := w.minute_lt
  have second := w.second_lt
  show w.seconds < 86400 * w.dayNumber + 3600 * ((w.hour + 1 : Nat) : Int)
  omega

theorem hour_of_lt_atHour {hour : Nat} (hle : w ≤ v) (hlt : v < w.atHour hour) (h : hour ≤ 24) :
    v.dayNumber = w.dayNumber ∧ w.hour ≤ v.hour ∧ v.hour < hour := by
  have hle : w.seconds ≤ v.seconds := hle
  have hlt : v.seconds < 86400 * w.dayNumber + 3600 * hour := hlt
  unfold dayNumber at hlt
  unfold dayNumber WallClock.hour secondOfDay
  omega

theorem minute_of_lt_atMinute {minute : Nat} (hle : w ≤ v) (hlt : v < w.atMinute minute)
    (h : minute ≤ 60) : w.minute ≤ v.minute ∧ v.minute < minute := by
  have hle : w.seconds ≤ v.seconds := hle
  have hlt : v.seconds < w.seconds / 3600 * 3600 + 60 * minute := hlt
  unfold WallClock.minute secondOfDay
  omega

theorem second_of_lt_atSecond {second : Nat} (hle : w ≤ v) (hlt : v < w.atSecond second)
    (h : second ≤ 60) : w.second ≤ v.second ∧ v.second < second := by
  have hle : w.seconds ≤ v.seconds := hle
  have hlt : v.seconds < w.seconds / 60 * 60 + second := hlt
  unfold WallClock.second secondOfDay
  omega

end WallClock

/-- Whether a zone skips an hour does not depend on the time within the hour. -/
theorem Zone.skipsHour_atHour (z : Zone) (w : WallClock) :
    z.skipsHour (w.atHour w.hour) = z.skipsHour w := by
  rw [skipsHour, skipsHour, w.startOfHour_atHour]

namespace Rule

variable {r : Rule} {z : Zone} {w v next : WallClock}

/-- A time is given up when some hour that the rule admits, on the same day and no later, is skipped
by the zone. -/
def GivesUp (r : Rule) (z : Zone) (w : WallClock) : Prop :=
  ∃ hour, r.hours.getLsbD hour = true ∧ hour ≤ w.hour ∧ z.skipsHour (w.atHour hour) = true

theorem not_givesUp (kept : ∀ w, z.skipsHour w = false) : ¬r.GivesUp z w := by
  intro givenUp
  obtain ⟨hour, _, _, skipped⟩ := givenUp
  rw [kept] at skipped
  cases skipped

/-- A time is given up on the way from an earlier one when such an hour is not over there. -/
def GivesUpFrom (r : Rule) (z : Zone) (w v : WallClock) : Prop :=
  ∃ hour, r.hours.getLsbD hour = true ∧ hour ≤ v.hour ∧ z.skipsHour (v.atHour hour) = true ∧
    w < v.atHour (hour + 1)

theorem GivesUpFrom.givesUp (h : r.GivesUpFrom z w v) : r.GivesUp z v := by
  obtain ⟨hour, admitted, reached, skipped, _⟩ := h
  exact ⟨hour, admitted, reached, skipped⟩

theorem GivesUpFrom.of_le {u : WallClock} (hle : u ≤ w) (h : r.GivesUpFrom z w v) :
    r.GivesUpFrom z u v := by
  obtain ⟨hour, admitted, reached, skipped, ahead⟩ := h
  exact ⟨hour, admitted, reached, skipped, Int.lt_of_le_of_lt hle ahead⟩

theorem admits_iff :
    r.admits w = true ↔
      r.months.getLsbD (w.date.month - 1) = true ∧
      (r.daySet w.date.year w.date.month).getLsbD (w.date.day - 1) = true ∧
      r.hours.getLsbD w.hour = true ∧ r.minutes.getLsbD w.minute = true ∧
      r.admitsSecond w.second = true := by
  simp only [admits, admitsDate, Bool.and_eq_true, and_assoc]

theorem admitsDate_of_admits (met : r.admits w = true) : r.admitsDate w.date = true := by
  obtain ⟨month, day, _⟩ := admits_iff.1 met
  rw [admitsDate, month, day]
  rfl

/-! ## Months -/

theorem monthCarry?_eq_none_iff :
    r.monthCarry? w = none ↔ r.months.getLsbD (w.date.month - 1) = true := by
  have pos := w.isProper_date.1
  rcases r.months.next?_cases (w.date.month - 1) with
    ⟨found, member⟩ | ⟨month, found, later, _, least⟩ | ⟨found, rest⟩
  · have stays : w.date.month - 1 < w.date.month := by omega
    simp [monthCarry?, found, member, stays]
  · have goes : ¬month < w.date.month := by omega
    simp [monthCarry?, found, goes, least _ (Nat.le_refl _) later]
  · simp [monthCarry?, found, rest _ (Nat.le_refl _)]

/-- The month with which a later year begins. -/
theorem first_month (hr : r.IsWellFormed) :
    (r.months.next? 0).getD 0 < 12 ∧
      ∀ j < (r.months.next? 0).getD 0, r.months.getLsbD j = false := by
  cases start : r.months.next? 0 with
  | none => exact ⟨by decide, by simp⟩
  | some month =>
    obtain ⟨_, member, least⟩ := BitSet.next?_eq_some_iff.1 start
    exact ⟨hr.months month member, fun j hj => least j (Nat.zero_le j) hj⟩

theorem month_of_monthCarry? (hr : r.IsWellFormed) (h : r.monthCarry? w = some next) (hle : w ≤ v)
    (hlt : v < next) : r.months.getLsbD (v.date.month - 1) = false := by
  obtain ⟨pos, le, _⟩ := w.isProper_date
  obtain ⟨pos', le', _⟩ := v.isProper_date
  have order : w.date.monthNumber ≤ v.date.monthNumber :=
    Date.monthNumber_mono (WallClock.dayNumber_mono hle)
  rcases r.months.next?_cases (w.date.month - 1) with
    ⟨_, member⟩ | ⟨month, found, later, member, least⟩ | ⟨found, rest⟩
  · rw [monthCarry?_eq_none_iff.2 member] at h
    cases h
  · have goes : ¬month < w.date.month := by omega
    simp only [monthCarry?, found, if_neg goes, Option.some.injEq] at h
    subst h
    have bound := hr.months month member
    have before : v.date.monthNumber < 12 * w.date.year + (month + 1 : Nat) :=
      (Date.lt_dayNumber_first_iff (by omega) (by omega)).1 (WallClock.lt_midnight_iff.1 hlt)
    unfold Date.monthNumber at order before
    exact least _ (by omega) (by omega)
  · simp only [monthCarry?, found, Option.some.injEq] at h
    subst h
    obtain ⟨bound, least⟩ := first_month hr
    have before : v.date.monthNumber < 12 * (w.date.year + 1) +
        ((r.months.next? 0).getD 0 + 1 : Nat) :=
      (Date.lt_dayNumber_first_iff (by omega) (by omega)).1 (WallClock.lt_midnight_iff.1 hlt)
    unfold Date.monthNumber at order before
    by_cases same : v.date.year = w.date.year
    · exact rest _ (by omega)
    · exact least _ (by omega)

/-! ## Days -/

theorem dayCarry?_eq_none_iff :
    r.dayCarry? w = none ↔
      (r.daySet w.date.year w.date.month).getLsbD (w.date.day - 1) = true := by
  have pos := w.isProper_date.2.2.1
  rcases (r.daySet w.date.year w.date.month).next?_cases (w.date.day - 1) with
    ⟨found, member⟩ | ⟨day, found, later, _, least⟩ | ⟨found, rest⟩
  · have stays : w.date.day - 1 < w.date.day := by omega
    simp [dayCarry?, found, member, stays]
  · have goes : ¬day < w.date.day := by omega
    simp [dayCarry?, found, goes, least _ (Nat.le_refl _) later]
  · simp [dayCarry?, found, rest _ (Nat.le_refl _)]

theorem day_of_dayCarry? (h : r.dayCarry? w = some next) (hle : w ≤ v) (hlt : v < next) :
    (r.daySet v.date.year v.date.month).getLsbD (v.date.day - 1) = false := by
  obtain ⟨month_pos, month_le, day_pos, day_le⟩ := w.isProper_date
  have here : w.date.dayNumber = w.dayNumber := Date.dayNumber_ofDayNumber w.dayNumber
  rcases (r.daySet w.date.year w.date.month).next?_cases (w.date.day - 1) with
    ⟨_, member⟩ | ⟨day, found, later, member, least⟩ | ⟨found, rest⟩
  · rw [dayCarry?_eq_none_iff.2 member] at h
    cases h
  · have goes : ¬day < w.date.day := by omega
    simp only [dayCarry?, found, if_neg goes, Option.some.injEq] at h
    subst h
    have inside := lt_of_daySet member
    have before := WallClock.lt_midnight_iff.1 hlt
    have there : Date.dayNumber ⟨w.date.year, w.date.month, day + 1⟩ =
        w.dayNumber + (day + 1 - w.date.day : Nat) := by
      unfold Date.dayNumber at here ⊢
      simp only at here ⊢
      omega
    rw [there] at before
    obtain ⟨k, hk, hv⟩ := WallClock.date_eq_of_lt hle before (by omega)
    rw [hv]
    exact least _ (by simp only; omega) (by simp only; omega)
  · simp only [dayCarry?, found, Option.some.injEq] at h
    subst h
    have before := WallClock.lt_midnight_iff.1 hlt
    have there : w.date.nextMonth.dayNumber = w.dayNumber +
        (daysInMonth w.date.year w.date.month + 1 - w.date.day : Nat) := by
      have first := Date.dayNumber_first_next (y := w.date.year) month_pos month_le
      rw [Date.nextMonth, first]
      unfold Date.dayNumber at here ⊢
      simp only at here ⊢
      omega
    rw [there] at before
    obtain ⟨k, hk, hv⟩ := WallClock.date_eq_of_lt hle before (by omega)
    rw [hv]
    exact rest _ (by simp only; omega)

/-! ## Hours -/

theorem hourCarry?_eq_none_iff :
    r.hourCarry? z w = none ↔ r.hours.getLsbD w.hour = true ∧ z.skipsHour w = false := by
  rcases r.hours.next?_cases w.hour with
    ⟨found, member⟩ | ⟨hour, found, later, _, least⟩ | ⟨found, rest⟩
  · simp [hourCarry?, found, member]
  · simp [hourCarry?, found, later, least _ (Nat.le_refl _) later]
  · simp [hourCarry?, found, rest _ (Nat.le_refl _)]

theorem hour_of_hourCarry? (hr : r.IsWellFormed) (h : r.hourCarry? z w = some next) (hle : w ≤ v)
    (hlt : v < next) :
    r.hours.getLsbD v.hour = false ∨ next = w.nextDay ∧ r.GivesUpFrom z w v := by
  rcases r.hours.next?_cases w.hour with
    ⟨found, member⟩ | ⟨hour, found, later, member, least⟩ | ⟨found, rest⟩
  · -- an admitted hour is left only when the zone skips it, and with it the day
    simp only [hourCarry?, found, Nat.lt_irrefl, if_false] at h
    split at h
    · rename_i skipped
      cases h
      obtain ⟨sameDay, reached, _⟩ :=
        WallClock.hour_of_lt_atHour hle (w.nextDay_eq ▸ hlt) (Nat.le_refl 24)
      have sameHours (hour : Nat) : v.atHour hour = w.atHour hour := by
        rw [WallClock.atHour, sameDay, ← WallClock.atHour]
      refine .inr ⟨rfl, w.hour, member, reached, ?_, ?_⟩
      · rw [sameHours, z.skipsHour_atHour]
        exact skipped
      · rw [sameHours]
        exact w.lt_atHour_succ
    · cases h
  · simp only [hourCarry?, found, if_pos later, Option.some.injEq] at h
    subst h
    have bound := hr.hours hour member
    obtain ⟨_, reached, before⟩ := WallClock.hour_of_lt_atHour hle hlt (by omega)
    exact .inl (least _ reached before)
  · simp only [hourCarry?, found, Option.some.injEq] at h
    subst h
    rw [WallClock.nextDay_eq] at hlt
    obtain ⟨_, reached, _⟩ := WallClock.hour_of_lt_atHour hle hlt (Nat.le_refl 24)
    exact .inl (rest _ reached)

/-! ## Minutes and seconds -/

theorem minuteCarry?_eq_none_iff :
    r.minuteCarry? w = none ↔ r.minutes.getLsbD w.minute = true := by
  rcases r.minutes.next?_cases w.minute with
    ⟨found, member⟩ | ⟨minute, found, later, _, least⟩ | ⟨found, rest⟩
  · simp [minuteCarry?, found, member]
  · simp [minuteCarry?, found, later, least _ (Nat.le_refl _) later]
  · simp [minuteCarry?, found, rest _ (Nat.le_refl _)]

theorem minute_of_minuteCarry? (hr : r.IsWellFormed) (h : r.minuteCarry? w = some next)
    (hle : w ≤ v) (hlt : v < next) : r.minutes.getLsbD v.minute = false := by
  rcases r.minutes.next?_cases w.minute with
    ⟨_, member⟩ | ⟨minute, found, later, member, least⟩ | ⟨found, rest⟩
  · rw [minuteCarry?_eq_none_iff.2 member] at h
    cases h
  · simp only [minuteCarry?, found, if_pos later, Option.some.injEq] at h
    subst h
    have bound := hr.minutes minute member
    obtain ⟨reached, before⟩ := WallClock.minute_of_lt_atMinute hle hlt (by omega)
    exact least _ reached before
  · simp only [minuteCarry?, found, Option.some.injEq] at h
    subst h
    obtain ⟨reached, _⟩ := WallClock.minute_of_lt_atMinute hle hlt (Nat.le_refl 60)
    exact rest _ reached

theorem secondCarry?_eq_none_iff :
    r.secondCarry? w = none ↔ r.admitsSecond w.second = true := by
  by_cases seconds : r.hasSeconds = true
  · rcases r.seconds.next?_cases w.second with
      ⟨found, member⟩ | ⟨second, found, later, _, least⟩ | ⟨found, rest⟩
    · simp [secondCarry?, admitsSecond, seconds, found, member]
    · simp [secondCarry?, admitsSecond, seconds, found, later, least _ (Nat.le_refl _) later]
    · simp [secondCarry?, admitsSecond, seconds, found, rest _ (Nat.le_refl _)]
  · simp [secondCarry?, admitsSecond, seconds]

theorem second_of_secondCarry? (hr : r.IsWellFormed) (h : r.secondCarry? w = some next)
    (hle : w ≤ v) (hlt : v < next) : r.admitsSecond v.second = false := by
  by_cases seconds : r.hasSeconds = true
  · rw [admitsSecond, if_pos seconds]
    rcases r.seconds.next?_cases w.second with
      ⟨found, _⟩ | ⟨second, found, later, member, least⟩ | ⟨found, rest⟩
    · simp [secondCarry?, seconds, found] at h
    · simp only [secondCarry?, seconds, found, if_true, if_pos later, Option.some.injEq] at h
      subst h
      have bound := hr.seconds second member
      obtain ⟨reached, before⟩ := WallClock.second_of_lt_atSecond hle hlt (by omega)
      exact least _ reached before
    · simp only [secondCarry?, seconds, found, if_true, Option.some.injEq] at h
      subst h
      obtain ⟨reached, _⟩ := WallClock.second_of_lt_atSecond hle hlt (Nat.le_refl 60)
      exact rest _ reached
  · rw [admitsSecond, if_neg seconds, decide_eq_false_iff_not]
    rw [secondCarry?, if_neg seconds] at h
    split at h
    · cases h
    · cases h
      obtain ⟨reached, _⟩ := WallClock.second_of_lt_atSecond hle hlt (Nat.le_refl 60)
      omega

/-! ## All fields -/

/-- The search stays at a time that meets the rule and whose hour the zone keeps, and at no
other. -/
theorem carry?_eq_none_iff :
    r.carry? z w = none ↔ r.admits w = true ∧ z.skipsHour w = false := by
  simp only [carry?, Option.orElse_eq_orElse, Option.orElse_eq_or, Option.or_eq_none_iff]
  rw [monthCarry?_eq_none_iff, dayCarry?_eq_none_iff, hourCarry?_eq_none_iff,
    minuteCarry?_eq_none_iff, secondCarry?_eq_none_iff, admits_iff]
  constructor
  · rintro ⟨month, day, ⟨hour, kept⟩, minute, second⟩
    exact ⟨⟨month, day, hour, minute, second⟩, kept⟩
  · rintro ⟨⟨month, day, hour, minute, second⟩, kept⟩
    exact ⟨month, day, ⟨hour, kept⟩, minute, second⟩

theorem carry?_cases (h : r.carry? z w = some next) :
    r.monthCarry? w = some next ∨ r.dayCarry? w = some next ∨ r.hourCarry? z w = some next ∨
      r.minuteCarry? w = some next ∨ r.secondCarry? w = some next := by
  simp only [carry?, Option.orElse_eq_orElse, Option.orElse_eq_or, Option.or_eq_some_iff] at h
  rcases h with h | ⟨_, h | ⟨_, h | ⟨_, h | ⟨_, h⟩⟩⟩⟩
  · exact .inl h
  · exact .inr (.inl h)
  · exact .inr (.inr (.inl h))
  · exact .inr (.inr (.inr (.inl h)))
  · exact .inr (.inr (.inr (.inr h)))

/-- A carry that passes over a time that meets the rule leads to the next day, away from an hour that
the zone skips. -/
theorem nextDay_of_carry? (hr : r.IsWellFormed) (h : r.carry? z w = some next) (hle : w ≤ v)
    (hlt : v < next) (met : r.admits v = true) : next = w.nextDay ∧ r.GivesUpFrom z w v := by
  obtain ⟨month, day, hour, minute, second⟩ := admits_iff.1 met
  rcases carry?_cases h with h | h | h | h | h
  · rw [month_of_monthCarry? hr h hle hlt] at month
    cases month
  · rw [day_of_dayCarry? h hle hlt] at day
    cases day
  · rcases hour_of_hourCarry? hr h hle hlt with missed | givenUp
    · rw [missed] at hour
      cases hour
    · exact givenUp
  · rw [minute_of_minuteCarry? hr h hle hlt] at minute
    cases minute
  · rw [second_of_secondCarry? hr h hle hlt] at second
    cases second

/-- **A carry passes over no time that meets the rule**, save those that a skipped hour gives up. -/
theorem givesUpFrom_of_carry? (hr : r.IsWellFormed) (h : r.carry? z w = some next) (hle : w ≤ v)
    (hlt : v < next) (met : r.admits v = true) : r.GivesUpFrom z w v :=
  (nextDay_of_carry? hr h hle hlt met).2

theorem sixty_dvd_midnight (n : Int) : 60 ∣ (WallClock.midnight n).seconds := by
  show 60 ∣ 86400 * n
  omega

theorem sixty_dvd_atHour (w : WallClock) (hour : Nat) : 60 ∣ (w.atHour hour).seconds := by
  show 60 ∣ 86400 * w.dayNumber + 3600 * (hour : Int)
  omega

theorem sixty_dvd_atMinute (w : WallClock) (minute : Nat) : 60 ∣ (w.atMinute minute).seconds := by
  show 60 ∣ w.seconds / 3600 * 3600 + 60 * (minute : Int)
  omega

/-- A carry leads to a whole number of the rule's units. -/
theorem unit_dvd_of_carry? (h : r.carry? z w = some next) : r.unit ∣ next.seconds := by
  by_cases seconds : r.hasSeconds = true
  · rw [unit, if_pos seconds]
    exact Int.one_dvd _
  · rw [unit, if_neg seconds]
    rcases carry?_cases h with h | h | h | h | h
    · simp only [monthCarry?] at h
      split at h
      · split at h
        · cases h
        · cases h
          exact sixty_dvd_midnight _
      · cases h
        exact sixty_dvd_midnight _
    · simp only [dayCarry?] at h
      split at h
      · split at h
        · cases h
        · cases h
          exact sixty_dvd_midnight _
      · cases h
        exact sixty_dvd_midnight _
    · simp only [hourCarry?] at h
      split at h
      · split at h
        · cases h
          exact sixty_dvd_atHour w _
        · split at h
          · cases h
            exact sixty_dvd_midnight _
          · cases h
      · cases h
        exact sixty_dvd_midnight _
    · simp only [minuteCarry?] at h
      split at h
      · split at h
        · cases h
          exact sixty_dvd_atMinute w _
        · cases h
      · cases h
        exact sixty_dvd_atMinute w 60
    · rw [secondCarry?, if_neg seconds] at h
      split at h
      · cases h
      · cases h
        show 60 ∣ w.seconds / 60 * 60 + ((60 : Nat) : Int)
        omega

/-- A time that meets a rule is a whole number of the rule's units. -/
theorem unit_dvd_of_admits (met : r.admits w = true) : r.unit ∣ w.seconds := by
  obtain ⟨_, _, _, _, second⟩ := admits_iff.1 met
  unfold unit admitsSecond at *
  by_cases seconds : r.hasSeconds = true
  · rw [if_pos seconds]
    exact Int.one_dvd _
  · rw [if_neg seconds, decide_eq_true_eq] at second
    rw [if_neg seconds]
    have split := w.seconds_eq
    omega

end Rule

end Recurrence
