import Recurrence.Proofs.Occurrence.Never
import Recurrence.Proofs.Zone.Spaced

/-!
# The second pass of a repeated time

An instant comes back when it is later and the clock shows no later time (`Rule.ComesBack`): it
belongs to the second pass of times that a change repeats. In a zone with time between its changes
no such instant is given up for a skipped hour (`Rule.ComesBack.not_givesUp`), so the search in the
repeated hour finds the first of them, and nothing only where there is none
(`Rule.isFirst_searchRepeated`).

Hence from an instant in the first pass no occurrence of the second pass is lost
(`Rule.exists_nextAfter?_le_of_inSecondPass`). The search must be able to set out at all, though:
in the last minute of the calendar a rule without seconds has no time left at which to begin, and
the second pass is lost with the first (`Rule.nextAfter?_lastHalfHour`).
-/

namespace Recurrence

/-! ## Both passes -/

namespace Zone

variable {z : Zone} {c : Change} {t x : Instant}

/-- The clock shows a time that a change repeats. -/
def ShowsRepeated (z : Zone) (c : Change) (t : Instant) : Prop :=
  c.opens ≤ (z.wallClock t).seconds ∧ (z.wallClock t).seconds < c.closes ∧ c.after < c.before

/-- The clock shows a time that a change repeats, for the first time. -/
def InFirstPass (z : Zone) (c : Change) (t : Instant) : Prop :=
  z.ShowsRepeated c t ∧ z.offsetAt t = c.before

/-- The clock shows a time that a change repeats, for the second time. -/
def InSecondPass (z : Zone) (c : Change) (t : Instant) : Prop :=
  z.ShowsRepeated c t ∧ z.offsetAt t = c.after

instance (z : Zone) (c : Change) (t : Instant) : Decidable (z.ShowsRepeated c t) :=
  inferInstanceAs (Decidable (_ ∧ _))

instance (z : Zone) (c : Change) (t : Instant) : Decidable (z.InFirstPass c t) :=
  inferInstanceAs (Decidable (_ ∧ _))

instance (z : Zone) (c : Change) (t : Instant) : Decidable (z.InSecondPass c t) :=
  inferInstanceAs (Decidable (_ ∧ _))

theorem seconds_wallClock_eq (z : Zone) (t : Instant) :
    (z.wallClock t).seconds = t.seconds + z.offsetAt t := rfl

theorem seconds_lt_of_passes (first : z.InFirstPass c t) (second : z.InSecondPass c x) :
    t.seconds < x.seconds := by
  obtain ⟨⟨_, closes, back⟩, before⟩ := first
  obtain ⟨⟨opens, _, _⟩, after⟩ := second
  rw [seconds_wallClock_eq] at opens closes
  unfold Change.opens at opens
  unfold Change.closes at closes
  omega

end Zone

namespace Rule

variable {r : Rule} {z : Zone} {after t x : Instant} {c : Change}

/-! ## Instants that come back -/

/-- An instant at which a rule is met later than `after`, when the clock shows no later time than it
does at `after`. -/
structure ComesBack (r : Rule) (z : Zone) (after x : Instant) : Prop where
  whole : x.IsWhole
  inRange : x.InRange
  later : after < x
  behind : z.wallClock x ≤ z.wallClock after
  met : r.admits (z.wallClock x) = true

/-- Times that the clock repeats are not given up in a zone with time between its changes. -/
theorem not_givesUp_of_showsRepeated (hz : z.IsSpaced) (hc : c ∈ z.changes)
    (shown : z.ShowsRepeated c x) : ¬r.GivesUp z (z.wallClock x) := by
  intro givenUp
  obtain ⟨hour, _, reached, skipped⟩ := givenUp
  obtain ⟨opens, closes, back⟩ := shown
  have near : (z.wallClock x).seconds - 86400 ≤
      ((z.wallClock x).atHour hour).startOfHour.seconds ∧
      ((z.wallClock x).atHour hour).startOfHour.seconds ≤ (z.wallClock x).seconds + 86400 := by
    have split := (z.wallClock x).seconds_eq
    have hourBound := (z.wallClock x).hour_lt
    have minuteBound := (z.wallClock x).minute_lt
    have secondBound := (z.wallClock x).second_lt
    unfold WallClock.atHour WallClock.startOfHour
    simp only
    omega
  rw [hz.skipsHour_eq_false_near hc (Int.le_of_lt back) opens closes near] at skipped
  cases skipped

namespace ComesBack

theorem afterSeconds (h : r.ComesBack z after x) : after.seconds < x.seconds :=
  (Instant.lt_iff_seconds_lt h.whole).1 h.later

theorem exists_change (hz : z.IsRegular) (h : r.ComesBack z after x) :
    ∃ c ∈ z.changes, z.ShowsRepeated c x := by
  obtain ⟨c, hc, notYet, started, _, _⟩ :=
    Zone.exists_change_of_clock_le hz h.afterSeconds h.behind
  have below : (z.wallClock after).seconds < c.start + c.before :=
    Zone.clockFrom_lt_of_lt_start hz.apart hc notYet
  have above : c.start + c.after ≤ (z.wallClock x).seconds :=
    Zone.le_clockFrom_of_start_le hz.apart hc started
  have behind : (z.wallClock x).seconds ≤ (z.wallClock after).seconds := h.behind
  refine ⟨c, hc, ?_⟩
  unfold Zone.ShowsRepeated Change.opens Change.closes
  omega

theorem not_givesUp (hz : z.IsSpaced) (h : r.ComesBack z after x) :
    ¬r.GivesUp z (z.wallClock x) := by
  obtain ⟨c, hc, shown⟩ := h.exists_change hz.isRegular
  exact not_givesUp_of_showsRepeated hz hc shown

end ComesBack

/-- An answer is the first of some instants; none is the answer where there are none. -/
def IsFirst (P : Instant → Prop) : Option Instant → Prop
  | some t => P t ∧ ∀ x, P x → t ≤ x
  | none => ∀ x, ¬P x

/-- The search in the repeated hour finds the first instant that comes back. -/
theorem isFirst_searchRepeated (hr : r.IsWellFormed) (hz : z.IsSpaced) (ha : after.InRange) :
    IsFirst (r.ComesBack z after) (r.searchRepeated z after) := by
  cases h : r.searchRepeated z after with
  | none =>
    intro x back
    obtain ⟨_, _, givenUp⟩ := givesUpFrom_of_repeated_eq_none hr hz.isRegular h back.whole
      back.inRange back.later back.met back.behind
    exact back.not_givesUp hz givenUp.givesUp
  | some t =>
    obtain ⟨w, start, rewound, began, found⟩ := searchRepeated_eq_some h
    obtain ⟨hit, stopped⟩ := searchFrom_eq_some hr hz.isRegular found
    refine ⟨⟨hit.whole, hit.inRange, hit.later, stopped _ rfl, hit.met⟩, fun x back => ?_⟩
    rw [Zone.rewound?_eq hz.isRegular back.afterSeconds back.behind] at rewound
    cases rewound
    have reached := (startAfter?_eq_some began).2.2 _ back.met
      (Int.add_lt_add_right back.afterSeconds (z.offsetAt x))
    by_cases before : x < t
    · have givenUp := hit.givesUpFrom_of_behind hz.isRegular ha back.whole back.later before
        back.met back.behind reached
      exact absurd givenUp.givesUp (back.not_givesUp hz)
    · exact Int.not_lt.1 before

/-! ## From the first pass -/

/-- Whether a search can set out behind a time: the calendar goes on for one unit of the rule at
least. -/
def CanStart (r : Rule) (w : WallClock) : Prop :=
  r.hasSeconds = true ∨ w.startOfMinute ≠ WallClock.last.startOfMinute

instance (r : Rule) (w : WallClock) : Decidable (r.CanStart w) :=
  inferInstanceAs (Decidable (_ ∨ _))

theorem startAfter?_isSome_of_canStart {w : WallClock} (h : r.CanStart w) (hlast : w < .last) :
    ∃ start, r.startAfter? w = some start := by
  have hlast : w.seconds < 253402300799 := hlast
  have inside : (if r.hasSeconds then w else w.startOfMinute).seconds + r.unit ≤
      WallClock.last.seconds := by
    unfold unit
    by_cases seconds : r.hasSeconds = true
    · rw [if_pos seconds, if_pos seconds]
      exact hlast
    · rw [if_neg seconds, if_neg seconds]
      have other : w.seconds / 60 * 60 ≠ 253402300799 / 60 * 60 := fun same =>
        h.elim seconds (absurd (congrArg WallClock.mk same))
      show w.seconds / 60 * 60 + 60 ≤ 253402300799
      omega
  exact ⟨_, if_pos inside⟩

theorem wallClock_lt_last (hz : z.IsRegular) (hx : x.InRange) (h : after.seconds < x.seconds) :
    z.wallClock after < .last := by
  have bounds := Zone.offsetAt_bounds hz after
  have upper := hx.2
  show after.seconds + z.offsetAt after < 253402300799
  unfold Zone.largestOffset at bounds
  unfold Instant.lastSecond at upper
  omega

/-- An occurrence in the second pass keeps the search in the first pass from finding nothing. -/
theorem exists_nextInstant?_of_inSecondPass (hr : r.IsWellFormed) (hz : z.IsSpaced)
    (hc : c ∈ z.changes) (ha : after.InRange) (first : z.InFirstPass c after) (whole : x.IsWhole)
    (inRange : x.InRange) (second : z.InSecondPass c x) (met : r.admits (z.wallClock x) = true)
    (starts : r.CanStart (z.wallClock after)) : ∃ t, r.nextInstant? z after = some t := by
  have afterSeconds := Zone.seconds_lt_of_passes first second
  have later := (Instant.lt_iff_seconds_lt whole).2 afterSeconds
  have feasible := isFeasible_of_admitsDate (WallClock.isProper_date _) (admitsDate_of_admits met)
  obtain ⟨start, began⟩ :=
    startAfter?_isSome_of_canStart starts (wallClock_lt_last hz.isRegular inRange afterSeconds)
  obtain ⟨started, _, next⟩ := startAfter?_eq_some began
  cases found : r.nextInstant? z after with
  | some t => exact ⟨t, rfl⟩
  | none =>
    rw [nextInstant?, if_pos feasible, began] at found
    obtain ⟨forward, repeated⟩ := earlier_eq_none found
    by_cases behind : z.wallClock x ≤ z.wallClock after
    · have never := isFirst_searchRepeated hr hz ha
      rw [repeated] at never
      exact absurd ⟨whole, inRange, later, behind, met⟩ (never x)
    · -- The time of `x` lies ahead, and less than the length of the repeated stretch ahead.
      have close : (z.wallClock x).seconds ≤ start.seconds + 86400 * cycleDays := by
        obtain ⟨opens, _, _⟩ := first.1
        obtain ⟨_, closes, _⟩ := second.1
        have boundsX := Zone.offsetAt_bounds hz.isRegular x
        have boundsAfter := Zone.offsetAt_bounds hz.isRegular after
        have started : (z.wallClock after).seconds < start.seconds := started
        rw [first.2] at boundsAfter
        rw [second.2] at boundsX
        unfold Change.opens at opens
        unfold Change.closes at closes
        unfold Zone.largestOffset cycleDays at *
        omega
      have passable := searchFrom_eq_none hr forward (next _ met (Int.not_le.1 behind))
        (wallClock_le_last hz.isRegular inRange) (fun _ member => (Option.not_mem_none _ member).elim)
        (year_le_of_close close)
      have givenUp := passable.givesUpFrom hz.isRegular whole inRange later met
      exact absurd givenUp.givesUp (not_givesUp_of_showsRepeated hz hc second.1)

/-- **The second pass of a repeated time is never lost**, where the search can set out at all: from
an instant in the first pass the next occurrence comes no later than any occurrence of the second
one. -/
theorem exists_nextAfter?_le_of_inSecondPass (hr : r.IsConstructible) (hz : z.IsSpaced)
    (hc : c ∈ z.changes) (ha : after.InRange) (first : z.InFirstPass c after) (whole : x.IsWhole)
    (inRange : x.InRange) (second : z.InSecondPass c x) (met : r.isMetBy ⟨x, z⟩ = true)
    (starts : r.CanStart (z.wallClock after)) :
    ∃ n, r.nextAfter? ⟨after, z⟩ = some n ∧ n.instant ≤ x := by
  have wellFormed := hr.isWellFormed
  obtain ⟨t, found⟩ := exists_nextInstant?_of_inSecondPass wellFormed hz hc ha first whole
    inRange second met starts
  refine ⟨⟨t, z⟩, congrArg (Option.map _) found, ?_⟩
  by_cases before : x < t
  · have later := (Instant.lt_iff_seconds_lt whole).2 (Zone.seconds_lt_of_passes first second)
    have givenUp :=
      givesUp_of_nextInstant? wellFormed hz.isRegular ha found whole later before met
    exact absurd givenUp (not_givesUp_of_showsRepeated hz hc second.1)
  · exact Int.not_lt.1 before

end Rule

/-! ## The last half hour of the calendar -/

/-- In the last minute of the calendar the clock is set back by half an hour, less one second. -/
def Zone.lastHalfHour : Zone := ⟨93599, [⟨253402207150, 91800⟩]⟩

theorem Zone.isSpaced_lastHalfHour : lastHalfHour.IsSpaced where
  apart := by decide
  initial_bounds := by decide
  offset_bounds := by decide

namespace Rule

/-- Half past every hour. -/
def halfHours : Rule := ⟨0xfff, 0x7fffffff, 0, 0, 0, 0xffffff, 0x40000000, 0⟩

theorem isConstructible_halfHours : halfHours.IsConstructible :=
  .inl ⟨[.values .minute [30]], rfl⟩

/-- One second before the last minute of the calendar the search goes on to the second half past
eleven. -/
theorem exists_nextAfter?_lastHalfHour :
    Zone.lastHalfHour.InFirstPass ⟨253402207150, 93599, 91800⟩ (.ofSeconds 253402207140) ∧
      Zone.lastHalfHour.InSecondPass ⟨253402207150, 93599, 91800⟩ (.ofSeconds 253402207200) ∧
      ∃ n, halfHours.nextAfter? ⟨.ofSeconds 253402207140, .lastHalfHour⟩ = some n ∧
        n.instant ≤ .ofSeconds 253402207200 := by
  have first : Zone.lastHalfHour.InFirstPass ⟨253402207150, 93599, 91800⟩
      (.ofSeconds 253402207140) := by decide
  have second : Zone.lastHalfHour.InSecondPass ⟨253402207150, 93599, 91800⟩
      (.ofSeconds 253402207200) := by decide
  exact ⟨first, second, exists_nextAfter?_le_of_inSecondPass isConstructible_halfHours
    Zone.isSpaced_lastHalfHour (by decide) (by decide) first (by decide) (by decide) second
    (by decide) (by decide)⟩

/-- From the last minute on it does not: the clock will be set back, and it will be half past eleven
once more, but behind this minute the calendar has ended. -/
theorem nextAfter?_lastHalfHour :
    halfHours.IsConstructible ∧ Zone.lastHalfHour.IsSpaced ∧
      ⟨253402207150, 93599, 91800⟩ ∈ Zone.lastHalfHour.changes ∧
      Zone.lastHalfHour.InFirstPass ⟨253402207150, 93599, 91800⟩ (.ofSeconds 253402207141) ∧
      Zone.lastHalfHour.InSecondPass ⟨253402207150, 93599, 91800⟩ (.ofSeconds 253402207200) ∧
      (Instant.ofSeconds 253402207141).InRange ∧ (Instant.ofSeconds 253402207200).InRange ∧
      Instant.ofSeconds 253402207141 < .ofSeconds 253402207200 ∧
      halfHours.isMetBy ⟨.ofSeconds 253402207200, .lastHalfHour⟩ = true ∧
      halfHours.nextAfter? ⟨.ofSeconds 253402207141, .lastHalfHour⟩ = none :=
  ⟨isConstructible_halfHours, Zone.isSpaced_lastHalfHour, by decide, by decide, by decide,
    by decide, by decide, by decide, by decide, by decide⟩

end Rule

end Recurrence
