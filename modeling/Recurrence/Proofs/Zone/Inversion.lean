import Recurrence.Proofs.Zone

/-!
# From the wall clock back to instants

The clock of a regular zone shows every time but those that a gap jumps over
(`Zone.skips_iff`). Of the instants at which it shows a time, `Zone.firstInstant?` finds the first
one after a given instant, and it finds none only where there is none
(`Zone.firstInstant?_inverts_clock`).
-/

namespace Recurrence

namespace Change

/-- A change that sets the clock forward. -/
def IsGap (c : Change) : Prop := c.before < c.after

/-- A gap jumps over a time of the wall clock. -/
def Skips (c : Change) (w : WallClock) : Prop :=
  c.IsGap ∧ c.opens ≤ w.seconds ∧ w.seconds < c.closes

instance (c : Change) : Decidable c.IsGap :=
  inferInstanceAs (Decidable (_ < _))

instance (c : Change) (w : WallClock) : Decidable (c.Skips w) :=
  inferInstanceAs (Decidable (_ ∧ _))

theorem IsGap.opens_eq {c : Change} (h : c.IsGap) : c.opens = c.start + c.before := by
  have h : c.before < c.after := h
  unfold opens
  omega

theorem IsGap.closes_eq {c : Change} (h : c.IsGap) : c.closes = c.start + c.after := by
  have h : c.before < c.after := h
  unfold closes
  omega

end Change

namespace Zone

/-- A change of the zone jumps over a time. -/
def Skips (z : Zone) (w : WallClock) : Prop := ∃ c ∈ z.changes, c.Skips w

/-- A whole second within the range of instants at which the clock shows a time. -/
structure ShowsAt (z : Zone) (w : WallClock) (t : Instant) : Prop where
  whole : t.IsWhole
  inRange : t.InRange
  shown : z.wallClock t = w

section

variable {z : Zone} (hz : z.IsRegular) {w : WallClock} {after t : Instant}

include hz in
theorem reading_eq_of_skips {c : Change} (hc : c ∈ z.changes) (h : c.Skips w) :
    z.reading w = .gap c.before c.after := by
  obtain ⟨forward, opened, closing⟩ := h
  rw [reading, readingFrom_eq hz.apart hc opened closing]
  exact if_pos forward

include hz in
/-- The clock never shows the times that a gap jumps over, and shows all others. -/
theorem skips_iff : z.Skips w ↔ ∀ t : Instant, z.wallClock t ≠ w := by
  have shown (offset : Int) (named : offset ∈ (z.reading w).offsets) :
      z.wallClock (.ofSeconds (w.seconds - offset)) = w := by
    rwa [wallClock_eq_iff hz, Instant.seconds_ofSeconds, Int.sub_sub_self]
  constructor
  · intro h t
    obtain ⟨c, hc, skipped⟩ := h
    rw [Ne, wallClock_eq_iff hz, reading_eq_of_skips hz hc skipped]
    exact Reading.not_mem_offsets_gap
  · intro never
    cases view : z.reading w with
    | single offset =>
      rw [view] at shown
      exact absurd (shown offset (Reading.mem_offsets_single.2 rfl)) (never _)
    | fold before after =>
      rw [view] at shown
      exact absurd (shown before (Reading.mem_offsets_fold.2 (.inl rfl))) (never _)
    | gap before after =>
      obtain ⟨c, hc, skipped⟩ := exists_change_of_readingFrom_eq_gap view
      exact ⟨c, hc, skipped⟩

include hz in
theorem firstInstant?_eq_some_iff :
    z.firstInstant? w after = some t ↔
      (z.ShowsAt w t ∧ after < t) ∧ ∀ x, z.ShowsAt w x → after < x → t ≤ x := by
  constructor
  · intro found
    obtain ⟨⟨whole, inRange, shown⟩, later, least⟩ := firstInstant?_spec hz found
    refine ⟨⟨⟨whole, inRange, shown⟩, later⟩, fun x shows => ?_⟩
    exact least x shows.whole shows.inRange shows.shown
  · intro h
    obtain ⟨⟨shows, later⟩, least⟩ := h
    cases found : z.firstInstant? w after with
    | none =>
      have gone := (firstInstant?_eq_none_iff hz).1 found t shows.whole shows.inRange shows.shown
      exact absurd later gone
    | some u =>
      obtain ⟨⟨whole, inRange, shown⟩, laterU, first⟩ := firstInstant?_spec hz found
      have le := first t shows.whole shows.inRange shows.shown later
      have ge := least u ⟨whole, inRange, shown⟩ laterU
      exact congrArg some (Instant.le_antisymm le ge)

include hz in
/-- **The first instant of a time inverts the clock.** It is the least whole second within range,
later than `after`, at which the clock shows the time. There is none exactly when each second at
which the clock shows the time is not later than `after` or is out of range; and there is no such
second at all exactly when a gap jumps over the time. -/
theorem firstInstant?_inverts_clock (w : WallClock) (after : Instant) :
    (∀ t, z.firstInstant? w after = some t ↔
      (z.ShowsAt w t ∧ after < t) ∧ ∀ x, z.ShowsAt w x → after < x → t ≤ x) ∧
    (z.firstInstant? w after = none ↔ ∀ x : Instant, x.IsWhole → z.wallClock x = w →
      x ≤ after ∨ ¬x.InRange) ∧
    (z.Skips w ↔ ∀ x : Instant, z.wallClock x ≠ w) := by
  refine ⟨fun t => firstInstant?_eq_some_iff hz, ?_, skips_iff hz⟩
  rw [firstInstant?_eq_none_iff hz]
  constructor
  · intro gone x whole shown
    by_cases inRange : x.InRange
    · exact .inl (Int.not_lt.1 (gone x whole inRange shown))
    · exact .inr inRange
  · intro past x whole inRange shown later
    cases past x whole shown with
    | inl notLater => exact Int.not_lt.2 notLater later
    | inr outside => exact outside inRange

end

/-- At one o'clock the clock is set forward to two, and back at two on the next day. -/
def oneDayAhead : Zone := ⟨0, [⟨3600, 3600⟩, ⟨90000, 0⟩]⟩

theorem isRegular_oneDayAhead : oneDayAhead.IsRegular where
  apart := by decide
  initial_bounds := by decide
  offset_bounds := by decide

/-- After the first half past one of the second day comes another one, an hour later; on the first
day there is none. -/
theorem firstInstant?_oneDayAhead :
    oneDayAhead.IsRegular ∧
      oneDayAhead.firstInstant? ⟨91800⟩ (.ofSeconds 88200) = some (.ofSeconds 91800) ∧
      (∀ x, oneDayAhead.ShowsAt ⟨91800⟩ x → Instant.ofSeconds 88200 < x →
        Instant.ofSeconds 91800 ≤ x) ∧
      oneDayAhead.Skips ⟨5400⟩ ∧ ∀ x : Instant, oneDayAhead.wallClock x ≠ ⟨5400⟩ := by
  have second : oneDayAhead.firstInstant? ⟨91800⟩ (.ofSeconds 88200) = some (.ofSeconds 91800) := by
    decide
  have gap : oneDayAhead.Skips ⟨5400⟩ := ⟨⟨3600, 0, 3600⟩, by decide, by decide⟩
  obtain ⟨found, _, _⟩ := firstInstant?_inverts_clock isRegular_oneDayAhead ⟨91800⟩ (.ofSeconds 88200)
  obtain ⟨_, _, skipped⟩ := firstInstant?_inverts_clock isRegular_oneDayAhead ⟨5400⟩ (.ofSeconds 0)
  exact ⟨isRegular_oneDayAhead, second, ((found _).1 second).2, gap, skipped.1 gap⟩

end Zone

end Recurrence
