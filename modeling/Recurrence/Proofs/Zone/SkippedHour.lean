import Recurrence.Proofs.Zone.Inversion

/-!
# Hours that a zone skips

An hour is judged by its two ends: each is read at the instant that stands for it, and the clock must
show another hour of the day there. Only a time in a gap is moved, so where at most one gap meets the
hour, the hour lies inside the gap (`Zone.coversHour_of_skipsHour`) and its ends are moved by as much
as the clock has advanced in the meantime. That is the length of the gap, unless the offset changes
once more before the gap's length has passed (`Zone.advance_eq_length`); and since hours of the day
are compared, what counts of it is what whole days leave over (`Zone.skipsHour_recognises_gap`).
-/

namespace Recurrence

/-! ## Ends of an hour -/

namespace WallClock

variable {w v : WallClock}

/-- The last second of a time's hour. -/
def endOfHour (w : WallClock) : WallClock := ⟨w.startOfHour.seconds + 3599⟩

/-- A time within the hour of another one. -/
def InHourOf (v w : WallClock) : Prop := w.startOfHour ≤ v ∧ v ≤ w.endOfHour

theorem startOfHour_inHourOf (w : WallClock) : w.startOfHour.InHourOf w := by
  refine ⟨Int.le_refl _, ?_⟩
  show w.startOfHour.seconds ≤ w.startOfHour.seconds + 3599
  omega

theorem endOfHour_inHourOf (w : WallClock) : w.endOfHour.InHourOf w := by
  refine ⟨?_, Int.le_refl _⟩
  show w.startOfHour.seconds ≤ w.startOfHour.seconds + 3599
  omega

/-- From the first second of an hour one comes into another hour of the day unless less than an
hour is left over of whole days. -/
theorem hour_ne_startOfHour_iff :
    v.hour ≠ w.startOfHour.hour ↔ 3600 ≤ (v.seconds - w.startOfHour.seconds) % 86400 := by
  unfold hour secondOfDay startOfHour
  simp only
  omega

/-- From the last second of an hour one does so unless whole days are left over, or all but less
than an hour of them. -/
theorem hour_ne_endOfHour_iff :
    v.hour ≠ w.endOfHour.hour ↔
      1 ≤ (v.seconds - w.endOfHour.seconds) % 86400 ∧
        (v.seconds - w.endOfHour.seconds) % 86400 ≤ 82800 := by
  unfold hour secondOfDay endOfHour startOfHour
  simp only
  omega

end WallClock

/-! ## Gaps and hours -/

namespace Change

variable {c : Change} {w : WallClock}

/-- How far a change sets the clock forward. -/
def length (c : Change) : Int := c.after - c.before

/-- A gap jumps over some second of an hour. -/
def MeetsHour (c : Change) (w : WallClock) : Prop := ∃ v, v.InHourOf w ∧ c.Skips v

/-- A gap jumps over every second of an hour. -/
def CoversHour (c : Change) (w : WallClock) : Prop := ∀ v, v.InHourOf w → c.Skips v

theorem meetsHour_iff :
    c.MeetsHour w ↔
      c.IsGap ∧ c.opens ≤ w.endOfHour.seconds ∧ w.startOfHour.seconds < c.closes := by
  constructor
  · intro h
    obtain ⟨v, ⟨first, last⟩, gap, opened, closing⟩ := h
    exact ⟨gap, Int.le_trans opened last, Int.lt_of_le_of_lt first closing⟩
  · intro h
    obtain ⟨gap, opened, closing⟩ := h
    have order : c.opens < c.closes := by
      rw [gap.opens_eq, gap.closes_eq]
      exact Int.add_lt_add_left gap c.start
    -- The later one of the two beginnings is in both.
    refine ⟨⟨max w.startOfHour.seconds c.opens⟩, ⟨?_, ?_⟩, gap, ?_, ?_⟩
    · exact Int.le_max_left _ _
    · exact Int.max_le.2 ⟨w.startOfHour_inHourOf.2, opened⟩
    · exact Int.le_max_right _ _
    · exact Int.max_lt.2 ⟨closing, order⟩

theorem coversHour_iff : c.CoversHour w ↔ c.Skips w.startOfHour ∧ c.Skips w.endOfHour := by
  constructor
  · intro h
    exact ⟨h _ w.startOfHour_inHourOf, h _ w.endOfHour_inHourOf⟩
  · intro h v inside
    obtain ⟨⟨gap, opened, _⟩, _, _, closing⟩ := h
    exact ⟨gap, Int.le_trans opened inside.1, Int.lt_of_le_of_lt inside.2 closing⟩

instance (c : Change) (w : WallClock) : Decidable (c.MeetsHour w) :=
  decidable_of_iff _ meetsHour_iff.symm

instance (c : Change) (w : WallClock) : Decidable (c.CoversHour w) :=
  decidable_of_iff _ coversHour_iff.symm

theorem CoversHour.meetsHour (h : c.CoversHour w) : c.MeetsHour w :=
  ⟨_, w.startOfHour_inHourOf, h _ w.startOfHour_inHourOf⟩

theorem CoversHour.le_length (h : c.CoversHour w) : 3600 ≤ c.length := by
  obtain ⟨⟨gap, opened, _⟩, _, _, closing⟩ := coversHour_iff.1 h
  rw [gap.opens_eq] at opened
  rw [gap.closes_eq] at closing
  have closing : w.startOfHour.seconds + 3599 < c.start + c.after := closing
  unfold length
  omega

end Change

namespace Zone

variable {z : Zone} {w v : WallClock} {t first last : Instant} {c : Change}

/-- At most one gap of a zone meets an hour. -/
def MeetsOneGap (z : Zone) (w : WallClock) : Prop :=
  ∀ c ∈ z.changes, ∀ d ∈ z.changes, c.MeetsHour w → d.MeetsHour w → c = d

/-- Behind a gap the offset stays for as long as the gap is. -/
def Settles (z : Zone) (c : Change) : Prop :=
  ∀ d ∈ z.changes, c.closes ≤ d.opens → c.start + c.length ≤ d.start

instance (z : Zone) (w : WallClock) : Decidable (z.MeetsOneGap w) :=
  inferInstanceAs (Decidable (∀ c ∈ z.changes, _))

instance (z : Zone) (c : Change) : Decidable (z.Settles c) :=
  inferInstanceAs (Decidable (∀ d ∈ z.changes, _))

/-- How far ahead of a time the clock is at an instant. -/
def advance (z : Zone) (w : WallClock) (t : Instant) : Int := (z.wallClock t).seconds - w.seconds

/-! ## How far a gap moves a time -/

section

variable {offset s : Int} {ts : List Transition}

/-- From its start until the next change starts, a change leaves its new offset in force. -/
theorem offsetFrom_eq_after (apart : (changesFrom offset ts).Pairwise (·.closes ≤ ·.opens))
    (hc : c ∈ changesFrom offset ts) (started : c.start ≤ s)
    (ahead : ∀ d ∈ changesFrom offset ts, c.closes ≤ d.opens → s < d.start) :
    offsetFrom offset ts s = c.after := by
  induction ts generalizing offset with
  | nil => cases hc
  | cons t ts ih =>
    have order := start_le_start apart
    obtain ⟨head, tail⟩ := List.pairwise_cons.1 apart
    have rest : ∀ d ∈ changesFrom t.offset ts, c.closes ≤ d.opens → s < d.start :=
      fun d hd => ahead d (List.mem_cons_of_mem _ hd)
    rcases List.mem_cons.1 hc with rfl | hc
    · rw [offsetFrom, if_neg (Int.not_lt.2 started)]
      exact offsetFrom_of_lt fun d hd => rest d hd (head d hd)
    · rw [offsetFrom, if_neg (Int.not_lt.2 (Int.le_trans (order c hc) started))]
      exact ih tail hc rest

end

section

variable (hz : z.IsRegular)
include hz

theorem seconds_of_nominalInstant? (hc : c ∈ z.changes) (skipped : c.Skips w)
    (found : z.nominalInstant? w = some t) : t.seconds = w.seconds - c.before := by
  rw [nominalInstant?, reading_eq_of_skips hz hc skipped] at found
  obtain ⟨_, _, seconds⟩ := Instant.atSecond?_eq_some_iff.1 found
  exact seconds

/-- A gap moves a time forward by its length, if the offset then stays for as long. -/
theorem advance_eq_length (hc : c ∈ z.changes) (settled : z.Settles c) (skipped : c.Skips w)
    (found : z.nominalInstant? w = some t) : z.advance w t = c.length := by
  have seconds := seconds_of_nominalInstant? hz hc skipped found
  obtain ⟨gap, opened, closing⟩ := skipped
  rw [gap.opens_eq] at opened
  rw [gap.closes_eq] at closing
  have after : z.offsetAt t = c.after := by
    refine offsetFrom_eq_after hz.apart hc (by omega) fun d hd later => ?_
    have stays := settled d hd later
    unfold Change.length at stays
    omega
  show t.seconds + z.offsetAt t - w.seconds = c.after - c.before
  omega

/-! ## The two ends -/

omit hz in
theorem leavesHour_iff (found : z.nominalInstant? w = some t) :
    z.leavesHour w = true ↔ (z.wallClock t).hour ≠ w.hour := by
  rw [leavesHour, found]
  exact decide_eq_true_iff

omit hz in
/-- An hour is skipped exactly when both of its ends are moved into another hour of the day. -/
theorem skipsHour_iff_advance (hfirst : z.nominalInstant? w.startOfHour = some first)
    (hlast : z.nominalInstant? w.endOfHour = some last) :
    z.skipsHour w = true ↔
      3600 ≤ z.advance w.startOfHour first % 86400 ∧
        1 ≤ z.advance w.endOfHour last % 86400 ∧ z.advance w.endOfHour last % 86400 ≤ 82800 := by
  have ends : z.skipsHour w = (z.leavesHour w.startOfHour && z.leavesHour w.endOfHour) := rfl
  rw [ends, Bool.and_eq_true, leavesHour_iff hfirst, leavesHour_iff hlast,
    WallClock.hour_ne_startOfHour_iff, WallClock.hour_ne_endOfHour_iff]
  rfl

/-- An hour that is skipped lies inside the gap that meets it. -/
theorem coversHour_of_skipsHour (one : z.MeetsOneGap w) (h : z.skipsHour w = true) :
    ∃ c ∈ z.changes, c.CoversHour w := by
  rw [skipsHour, Bool.and_eq_true] at h
  obtain ⟨c, hc, first⟩ := exists_change_of_leavesHour hz h.1
  obtain ⟨d, hd, last⟩ := exists_change_of_leavesHour hz h.2
  have meets : c.MeetsHour w := ⟨_, w.startOfHour_inHourOf, first⟩
  have meets' : d.MeetsHour w := ⟨_, w.endOfHour_inHourOf, last⟩
  have same := one c hc d hd meets meets'
  subst same
  exact ⟨c, hc, Change.coversHour_iff.2 ⟨first, last⟩⟩

/-- No second of an hour inside a gap exists. -/
theorem not_shown_of_coversHour (hc : c ∈ z.changes) (covers : c.CoversHour w) :
    ∀ v : WallClock, v.InHourOf w → ∀ t : Instant, z.wallClock t ≠ v :=
  fun v inside => (skips_iff hz).1 ⟨c, hc, covers v inside⟩

/-- An hour of which no second exists lies inside the gap that meets it. -/
theorem coversHour_of_not_shown (one : z.MeetsOneGap w)
    (never : ∀ v : WallClock, v.InHourOf w → ∀ t : Instant, z.wallClock t ≠ v) :
    ∃ c ∈ z.changes, c.CoversHour w := by
  obtain ⟨c, hc, first⟩ := (skips_iff hz).2 (never _ w.startOfHour_inHourOf)
  refine ⟨c, hc, fun v inside => ?_⟩
  obtain ⟨d, hd, skipped⟩ := (skips_iff hz).2 (never v inside)
  rwa [one c hc d hd ⟨_, w.startOfHour_inHourOf, first⟩ ⟨v, inside, skipped⟩]

/-- Where the offset stays behind the gap that meets an hour, the gap's length decides. -/
theorem skipsHour_iff_length (one : z.MeetsOneGap w)
    (hfirst : z.nominalInstant? w.startOfHour = some first)
    (hlast : z.nominalInstant? w.endOfHour = some last)
    (settled : ∀ c ∈ z.changes, c.MeetsHour w → z.Settles c) :
    z.skipsHour w = true ↔
      ∃ c ∈ z.changes, c.CoversHour w ∧ 3600 ≤ c.length % 86400 ∧ c.length % 86400 ≤ 82800 := by
  have moved : ∀ c ∈ z.changes, c.CoversHour w →
      z.advance w.startOfHour first = c.length ∧ z.advance w.endOfHour last = c.length := by
    intro c hc covers
    have stays := settled c hc covers.meetsHour
    obtain ⟨skipsFirst, skipsLast⟩ := Change.coversHour_iff.1 covers
    exact ⟨advance_eq_length hz hc stays skipsFirst hfirst,
      advance_eq_length hz hc stays skipsLast hlast⟩
  constructor
  · intro skipped
    obtain ⟨c, hc, covers⟩ := coversHour_of_skipsHour hz one skipped
    obtain ⟨low, _, high⟩ := (skipsHour_iff_advance hfirst hlast).1 skipped
    rw [(moved c hc covers).1] at low
    rw [(moved c hc covers).2] at high
    exact ⟨c, hc, covers, low, high⟩
  · intro h
    obtain ⟨c, hc, covers, low, high⟩ := h
    rw [skipsHour_iff_advance hfirst hlast, (moved c hc covers).1, (moved c hc covers).2]
    exact ⟨low, by omega, high⟩

/-- **Missing hours are recognised.** Where at most one gap meets an hour, the hour is skipped
exactly when it lies inside the gap and its two ends are moved into another hour of the day. If the
offset stays behind the gap, both are moved by its length; a gap of up to 23 hours then makes the
hour a skipped one exactly when no second of it exists. An hour of which any second exists is never
skipped. -/
theorem skipsHour_recognises_gap (one : z.MeetsOneGap w)
    (hfirst : z.nominalInstant? w.startOfHour = some first)
    (hlast : z.nominalInstant? w.endOfHour = some last) :
    (z.skipsHour w = true ↔ ∃ c ∈ z.changes, c.CoversHour w ∧
      3600 ≤ z.advance w.startOfHour first % 86400 ∧
      1 ≤ z.advance w.endOfHour last % 86400 ∧ z.advance w.endOfHour last % 86400 ≤ 82800) ∧
    ((∀ c ∈ z.changes, c.MeetsHour w → z.Settles c) →
      (z.skipsHour w = true ↔ ∃ c ∈ z.changes, c.CoversHour w ∧
        3600 ≤ c.length % 86400 ∧ c.length % 86400 ≤ 82800)) ∧
    ((∀ c ∈ z.changes, c.MeetsHour w → z.Settles c ∧ c.length ≤ 82800) →
      (z.skipsHour w = true ↔
        ∀ v : WallClock, v.InHourOf w → ∀ t : Instant, z.wallClock t ≠ v)) ∧
    (z.skipsHour w = true → ∀ v : WallClock, v.InHourOf w → ∀ t : Instant, z.wallClock t ≠ v) := by
  have never : z.skipsHour w = true →
      ∀ v : WallClock, v.InHourOf w → ∀ t : Instant, z.wallClock t ≠ v := by
    intro skipped
    obtain ⟨c, hc, covers⟩ := coversHour_of_skipsHour hz one skipped
    exact not_shown_of_coversHour hz hc covers
  refine ⟨?_, skipsHour_iff_length hz one hfirst hlast, ?_, never⟩
  · constructor
    · intro skipped
      obtain ⟨c, hc, covers⟩ := coversHour_of_skipsHour hz one skipped
      exact ⟨c, hc, covers, (skipsHour_iff_advance hfirst hlast).1 skipped⟩
    · intro h
      obtain ⟨_, _, _, moved⟩ := h
      exact (skipsHour_iff_advance hfirst hlast).2 moved
  · intro short
    refine ⟨never, fun gone => ?_⟩
    obtain ⟨c, hc, covers⟩ := coversHour_of_not_shown hz one gone
    obtain ⟨_, high⟩ := short c hc covers.meetsHour
    have low := covers.le_length
    rw [skipsHour_iff_length hz one hfirst hlast fun d hd meets => (short d hd meets).1]
    exact ⟨c, hc, covers, by omega, by omega⟩

end

/-- The hour from one to two of the first day is missing and recognised. -/
theorem skipsHour_oneDayAhead :
    oneDayAhead.MeetsOneGap ⟨3600⟩ ∧
      oneDayAhead.nominalInstant? (WallClock.startOfHour ⟨3600⟩) = some (.ofSeconds 3600) ∧
      oneDayAhead.nominalInstant? (WallClock.endOfHour ⟨3600⟩) = some (.ofSeconds 7199) ∧
      (∀ c ∈ oneDayAhead.changes, c.MeetsHour ⟨3600⟩ →
        oneDayAhead.Settles c ∧ c.length ≤ 82800) ∧
      oneDayAhead.skipsHour ⟨3600⟩ = true ∧
      ∀ v : WallClock, v.InHourOf ⟨3600⟩ → ∀ t : Instant, oneDayAhead.wallClock t ≠ v := by
  have one : oneDayAhead.MeetsOneGap ⟨3600⟩ := by decide
  have hfirst : oneDayAhead.nominalInstant? (WallClock.startOfHour ⟨3600⟩) =
      some (.ofSeconds 3600) := by decide
  have hlast : oneDayAhead.nominalInstant? (WallClock.endOfHour ⟨3600⟩) =
      some (.ofSeconds 7199) := by decide
  have short : ∀ c ∈ oneDayAhead.changes, c.MeetsHour ⟨3600⟩ →
      oneDayAhead.Settles c ∧ c.length ≤ 82800 := by decide
  have skipped : oneDayAhead.skipsHour ⟨3600⟩ = true := by decide
  obtain ⟨_, _, exact, _⟩ := skipsHour_recognises_gap isRegular_oneDayAhead one hfirst hlast
  exact ⟨one, hfirst, hlast, short, skipped, (exact short).1 skipped⟩

/-- At midnight the clock is set forward by an hour, and ten minutes later by 22 hours and a second
more. -/
def twoJumps : Zone := ⟨0, [⟨0, 3600⟩, ⟨600, 82801⟩]⟩

theorem isRegular_twoJumps : twoJumps.IsRegular where
  apart := by decide
  initial_bounds := by decide
  offset_bounds := by decide

/-- A gap of one hour covers the hour after midnight, and no other gap meets it. Yet the hour is not
taken for a skipped one: its last second is moved on to midnight of the next day, by both jumps
together. -/
theorem skipsHour_twoJumps :
    twoJumps.IsRegular ∧ twoJumps.MeetsOneGap ⟨0⟩ ∧
      twoJumps.nominalInstant? (WallClock.startOfHour ⟨0⟩) = some (.ofSeconds 0) ∧
      twoJumps.nominalInstant? (WallClock.endOfHour ⟨0⟩) = some (.ofSeconds 3599) ∧
      (∃ c ∈ twoJumps.changes, c.CoversHour ⟨0⟩ ∧ c.length = 3600 ∧
        3600 ≤ c.length % 86400 ∧ c.length % 86400 ≤ 82800) ∧
      twoJumps.skipsHour ⟨0⟩ = false :=
  ⟨isRegular_twoJumps, by decide, by decide, by decide, ⟨⟨0, 0, 3600⟩, by decide, by decide⟩,
    by decide⟩

end Zone

end Recurrence
