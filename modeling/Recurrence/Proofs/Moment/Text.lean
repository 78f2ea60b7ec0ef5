import Recurrence.Moment.Text
import Recurrence.Proofs.Occurrence.Never
import Recurrence.Proofs.Text.Decimal

/-!
# Written moments

A moment is written without loss when its zone is a whole number of minutes away from UTC, and less
than 26 hours, and its year is not negative (`Moment.IsWritable`). The moments that are read are
such moments (`Moment.isWritable_of_read?`), and what is written of one is read as the same moment
(`Moment.read?_write`): each reader takes off the front of a text what the writer of its part put
there. A written moment has no characters but digits and a few marks (`Moment.all_isPlain_write`).
-/

namespace Recurrence.Moment

variable {text rest : List Char}

/-! ## Dates and times of day -/

theorem readDigits?_writePadded {width n : Nat} (hw : 0 < width) (h : n < 10 ^ width)
    (rest : List Char) :
    readDigits? width (Decimal.writePadded width n ++ rest) = some (n, rest) := by
  have length := Decimal.length_writePadded hw h
  have inside : width ≤ (Decimal.writePadded width n ++ rest).length := by
    rw [List.length_append, length]
    exact Nat.le_add_right _ _
  rw [readDigits?, List.take_left' length, List.drop_left' length, guard, if_pos inside,
    Decimal.read?_eq_some_iff.2 (Decimal.isNumeral_writePadded width n)]
  rfl

theorem readChar?_cons (c : Char) (rest : List Char) : readChar? c (c :: rest) = some rest :=
  if_pos rfl

theorem readDate?_writeDate {d : Date} (valid : d.IsValid) (year : 0 ≤ d.year) (rest : List Char) :
    readDate? (writeDate d ++ rest) = some (d, rest) := by
  obtain ⟨⟨_, last, first_month, last_month⟩, _, last_day⟩ := id valid
  have days : daysInMonth d.year d.month ≤ 31 :=
    (daysInMonth_bounds (by omega) (by omega)).2
  have last : d.year ≤ 9999 := last
  have same : (⟨(d.year.toNat : Int), d.month, d.day⟩ : Date) = d := by
    rw [Int.toNat_of_nonneg year]
  rw [readDate?, writeDate]
  simp (disch := omega) only [List.append_assoc, List.cons_append, List.nil_append,
    readDigits?_writePadded, readChar?_cons, Option.bind_eq_bind, Option.bind_some, same, guard,
    if_pos valid]
  rfl

theorem readTime?_writeTime {hour minute second : Nat} (hh : hour < 24) (hm : minute < 60)
    (hs : second < 60) (rest : List Char) :
    readTime? (writeTime hour minute second ++ rest) =
      some (3600 * hour + 60 * minute + second, rest) := by
  have inside : hour ≤ 23 ∧ minute ≤ 59 ∧ second ≤ 60 := by omega
  have same : min second 59 = second := by omega
  rw [readTime?, writeTime]
  simp (disch := omega) only [List.append_assoc, List.cons_append, List.nil_append,
    readDigits?_writePadded, readChar?_cons, Option.bind_eq_bind, Option.bind_some, guard,
    if_pos inside, same]
  rfl

theorem isValid_of_readDate? {d : Date} (h : readDate? text = some (d, rest)) :
    d.IsValid ∧ 0 ≤ d.year := by
  simp only [readDate?, Option.bind_eq_bind, Option.bind_eq_some_iff, guard] at h
  obtain ⟨⟨year, _⟩, _, _, _, _, _, _, _, _, _, _, inside, same⟩ := h
  split at inside
  · rename_i valid
    cases same
    exact ⟨valid, Int.natCast_nonneg year⟩
  · cases inside

theorem lt_of_readTime? {second : Nat} (h : readTime? text = some (second, rest)) :
    second < 86400 := by
  simp only [readTime?, Option.bind_eq_bind, Option.bind_eq_some_iff, guard] at h
  obtain ⟨_, _, _, _, _, _, _, _, _, _, _, inside, same⟩ := h
  split at inside
  · cases same
    omega
  · cases inside

/-! ## Offsets -/

/-- An offset that is written without loss. -/
structure OffsetFits (offset : Int) : Prop where
  minutes : offset % 60 = 0
  small : offset.natAbs < 93600

instance (offset : Int) : Decidable (OffsetFits offset) :=
  decidable_of_iff (offset % 60 = 0 ∧ offset.natAbs < 93600)
    ⟨fun h => ⟨h.1, h.2⟩, fun h => ⟨h.minutes, h.small⟩⟩

variable {offset : Int}

theorem OffsetFits.bounds (h : OffsetFits offset) :
    -Zone.largestOffset ≤ offset ∧ offset ≤ Zone.largestOffset := by
  have small := h.small
  unfold Zone.largestOffset
  omega

theorem readSign?_cons (negative : Prop) [Decidable negative] (rest : List Char) :
    readSign? ((if negative then '-' else '+') :: rest) = some (decide negative, rest) := by
  split
  · rename_i h
    rw [readSign?, decide_eq_true h]
  · rename_i h
    rw [readSign?, decide_eq_false h]

theorem readOffset?_writeOffset (h : OffsetFits offset) (rest : List Char) :
    readOffset? (writeOffset offset ++ rest) = some (offset, rest) := by
  obtain ⟨minutes, small⟩ := h
  generalize hours : offset.natAbs / 60 / 60 = hour
  generalize left : offset.natAbs / 60 % 60 = minute
  have inside : hour ≤ 25 ∧ minute ≤ 59 := by omega
  have same : (if offset < 0 then -(3600 * (hour : Int) + 60 * minute)
      else 3600 * (hour : Int) + 60 * minute) = offset := by
    split <;> omega
  rw [readOffset?, writeOffset]
  simp (disch := omega) only [hours, left, List.append_assoc, List.cons_append, List.nil_append,
    readSign?_cons, readDigits?_writePadded, readChar?_cons, Option.bind_eq_bind,
    Option.bind_some, guard, if_pos inside, decide_eq_true_eq, same]
  rfl

theorem offsetFits_of_readOffset? (h : readOffset? text = some (offset, rest)) :
    OffsetFits offset := by
  simp only [readOffset?, Option.bind_eq_bind, Option.bind_eq_some_iff, guard] at h
  obtain ⟨_, _, ⟨hours, _⟩, _, _, _, ⟨minutes, _⟩, _, _, inside, same⟩ := h
  split at inside
  · rename_i inside
    cases same
    constructor
    · split <;> omega
    · split <;> omega
  · cases inside

/-! ## Zones -/

theorem readZoneName?_writeZoneName (h : OffsetFits offset) :
    readZoneName? offset ('[' :: (writeZoneName offset ++ [']'])) = some (.fixed offset) := by
  by_cases zero : offset = 0
  · subst zero
    rfl
  · have other : '[' :: (writeOffset offset ++ [']']) ≠ ['[', 'U', 'T', 'C', ']'] := by
      intro same
      have sign : (if offset < 0 then '-' else '+') = 'U' :=
        Option.some.inj (congrArg (·[1]?) same)
      split at sign <;> cases sign
    rw [readZoneName?, writeZoneName, if_neg zero, if_neg other]
    simp only [readChar?_cons, readOffset?_writeOffset h, Option.bind_eq_bind, Option.bind_some,
      guard, and_self, if_pos]
    rfl

theorem readZone?_write (h : OffsetFits offset) :
    readZone? (writeOffset offset ++ ('[' :: (writeZoneName offset ++ [']']))) =
      some (.fixed offset) := by
  have other : writeOffset offset ++ ('[' :: (writeZoneName offset ++ [']'])) ≠ ['Z'] := by
    intro same
    have length := congrArg List.length same
    simp [writeOffset] at length
  rw [readZone?, if_neg other]
  simp only [readOffset?_writeOffset h, Option.bind_eq_bind, Option.bind_some,
    readZoneName?_writeZoneName h]

theorem exists_offset_of_readZone? {z : Zone} (h : readZone? text = some z) :
    ∃ offset, OffsetFits offset ∧ z = .fixed offset := by
  rw [readZone?] at h
  split at h
  · cases h
    exact ⟨0, by decide, rfl⟩
  · obtain ⟨⟨offset, _⟩, read, named⟩ := Option.bind_eq_some_iff.1 h
    refine ⟨offset, offsetFits_of_readOffset? read, ?_⟩
    simp only [readZoneName?] at named
    split at named
    · split at named
      · rename_i zero
        cases named
        rw [zero]
        rfl
      · cases named
    · simp only [Option.bind_eq_bind, Option.bind_eq_some_iff] at named
      obtain ⟨_, _, _, _, _, _, same⟩ := named
      cases same
      rfl

/-! ## Moments -/

/-- A moment that is written without loss. -/
structure IsWritable (m : Moment) : Prop where
  zone : ∃ offset, OffsetFits offset ∧ m.zone = .fixed offset
  whole : m.instant.IsWhole
  inRange : m.instant.InRange
  year : 0 ≤ m.wallClock.date.year

namespace IsWritable

variable {m : Moment} (h : m.IsWritable)
include h

theorem isRegular : m.zone.IsRegular := by
  obtain ⟨offset, fits, zone⟩ := h.zone
  rw [zone]
  exact Zone.isRegular_fixed fits.bounds

theorem isValid_date : m.wallClock.date.IsValid := by
  obtain ⟨first_month, last_month, first_day, last_day⟩ := m.wallClock.isProper_date
  have last := Rule.le_lastYear (Rule.wallClock_le_last h.isRegular h.inRange)
  refine ⟨⟨Int.le_trans (by decide) h.year, last, ?_, ?_⟩, first_day, last_day⟩
  · omega
  · omega

end IsWritable

variable {m : Moment}

/-- **What is written of a moment is read as the same moment.** -/
theorem read?_write (h : m.IsWritable) : read? m.write = some m := by
  obtain ⟨offset, fits, zone⟩ := h.zone
  have same : m.offset = offset := by
    rw [Moment.offset, zone]
    rfl
  have shown : m.wallClock.seconds = m.instant.seconds + m.offset := rfl
  have parts := m.wallClock.seconds_eq
  have counted : m.wallClock.date.dayNumber = m.wallClock.dayNumber :=
    Date.dayNumber_ofDayNumber _
  have found : Instant.atSecond? (86400 * m.wallClock.date.dayNumber +
      ((3600 * m.wallClock.hour + 60 * m.wallClock.minute + m.wallClock.second : Nat) : Int) -
        (Zone.fixed offset).initial) = some m.instant := by
    refine Instant.atSecond?_eq_some_iff.2 ⟨h.whole, h.inRange, ?_⟩
    show _ = _ - offset
    omega
  rw [write, read?]
  simp only [List.append_assoc, List.cons_append, List.nil_append, same,
    readDate?_writeDate h.isValid_date h.year, readChar?_cons,
    readTime?_writeTime m.wallClock.hour_lt m.wallClock.minute_lt m.wallClock.second_lt,
    readZone?_write fits, Option.bind_eq_bind, Option.bind_some, found]
  rw [← zone]
  rfl

/-- What is read can be written. -/
theorem isWritable_of_read? (h : read? text = some m) : m.IsWritable := by
  simp only [read?, Option.bind_eq_bind, Option.bind_eq_some_iff] at h
  obtain ⟨⟨date, _⟩, readDate, _, _, ⟨second, _⟩, readTime, zone, readZone, t, found, same⟩ := h
  obtain ⟨offset, fits, rfl⟩ := exists_offset_of_readZone? readZone
  obtain ⟨⟨⟨_, _, first_month, last_month⟩, first_day, last_day⟩, year⟩ :=
    isValid_of_readDate? readDate
  have early := lt_of_readTime? readTime
  obtain ⟨whole, inRange, seconds⟩ := Instant.atSecond?_eq_some_iff.1 found
  cases same
  have day : (Moment.wallClock ⟨t, .fixed offset⟩).dayNumber = date.dayNumber := by
    have seconds : t.seconds = 86400 * date.dayNumber + second - offset := seconds
    show (t.seconds + offset) / 86400 = date.dayNumber
    omega
  have shown : (Moment.wallClock ⟨t, .fixed offset⟩).date = date := by
    rw [WallClock.date, day]
    exact Date.ofDayNumber_dayNumber ⟨by omega, by omega, first_day, last_day⟩
  exact ⟨⟨offset, fits, rfl⟩, whole, inRange, by rwa [shown]⟩

/-! ## Characters -/

/-- A text that is read begins with a digit. -/
theorem head?_of_read? (h : read? text = some m) : ∃ c, text.head? = some c ∧ c.isDigit = true := by
  simp only [read?, readDate?, readDigits?, Option.bind_eq_bind, Option.bind_eq_some_iff] at h
  obtain ⟨_, ⟨_, ⟨_, _, _, year, _⟩, _⟩, _⟩ := h
  obtain ⟨ne_nil, digits, _⟩ := Decimal.read?_eq_some_iff.1 year
  cases text with
  | nil => exact absurd rfl ne_nil
  | cons c text => exact ⟨c, rfl, List.all_eq_true.1 digits c List.mem_cons_self⟩

/-- The characters of written moments. -/
def isPlain (c : Char) : Bool :=
  c.isDigit || c ∈ ['-', ':', '+', 'T', '[', 'U', 'C', ']']

theorem all_isPlain_writePadded (width n : Nat) :
    (Decimal.writePadded width n).all isPlain = true := by
  rw [List.all_eq_true]
  intro c member
  rw [isPlain, Decimal.isDigit_of_mem_writePadded member]
  rfl

theorem all_isPlain_writeOffset (offset : Int) : (writeOffset offset).all isPlain = true := by
  have sign : isPlain (if offset < 0 then '-' else '+') = true := by split <;> rfl
  simp only [writeOffset, List.all_append, List.all_cons, List.all_nil, all_isPlain_writePadded,
    sign]
  rfl

theorem all_isPlain_write (m : Moment) : m.write.all isPlain = true := by
  have name : (writeZoneName m.offset).all isPlain = true := by
    rw [writeZoneName]
    split
    · rfl
    · exact all_isPlain_writeOffset _
  simp only [write, writeDate, writeTime, List.all_append, List.all_cons, List.all_nil,
    all_isPlain_writePadded, all_isPlain_writeOffset, name]
  rfl

end Recurrence.Moment
