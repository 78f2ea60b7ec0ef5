import Recurrence.Proofs.Occurrence.Next

/-!
# Searches from two instants

Of two instants the later one has the later next occurrence, save where the earlier one's search
gives up a day that the later one's does not. That a day is given up depends on where a search
starts: not until the skipped hour is over does a search get past it. A step of a search does not
pass such an hour and stay on its day (`GivesUpFrom.of_carry`, `GivesUpFrom.of_unit`), so a search
does not answer with a time that was given up from its start (`not_givesUpFrom_of_search`). Two
searches that disagree therefore start on either side of a skipped hour (`nextAfter?_mono`).
-/

namespace Recurrence

namespace WallClock

variable {w v : WallClock} {hour : Nat}

theorem startOfHour_startOfHour (w : WallClock) : w.startOfHour.startOfHour = w.startOfHour := by
  unfold startOfHour
  rw [mk.injEq]
  simp only
  omega

/-- An hour that ends after `w` and no later than the hour of `w` is the hour of `w`. -/
theorem atHour_eq_startOfHour (hlt : w < v.atHour (hour + 1))
    (hle : v.atHour (hour + 1) ≤ w.atMinute 60) : v.atHour hour = w.startOfHour := by
  have hlt : w.seconds < 86400 * v.dayNumber + 3600 * ((hour + 1 : Nat) : Int) := hlt
  have hle : 86400 * v.dayNumber + 3600 * ((hour + 1 : Nat) : Int) ≤
    w.seconds / 3600 * 3600 + 60 * ((60 : Nat) : Int) := hle
  unfold atHour startOfHour
  rw [mk.injEq]
  omega

theorem hour_eq_of_bounds {day : Int} (low : 86400 * day + 3600 * hour ≤ w.seconds)
    (high : w.seconds < 86400 * day + 3600 * (hour + 1)) (h : hour < 24) :
    w.dayNumber = day ∧ w.hour = hour := by
  have same : w.seconds / 86400 = day := by omega
  refine ⟨same, ?_⟩
  unfold WallClock.hour secondOfDay
  omega

/-- An hour that is not over at `w` has a time from `w` on. -/
theorem exists_in_hour (hlt : w < v.atHour (hour + 1)) (reached : hour ≤ v.hour) :
    ∃ u, w ≤ u ∧ u < v.atHour (hour + 1) ∧ u.dayNumber = v.dayNumber ∧ u.hour = hour := by
  have bound : v.hour < 24 := by
    unfold WallClock.hour secondOfDay
    omega
  have hlt : w.seconds < 86400 * v.dayNumber + 3600 * ((hour + 1 : Nat) : Int) := hlt
  let u : WallClock := ⟨max w.seconds (86400 * v.dayNumber + 3600 * hour)⟩
  have high : u.seconds < 86400 * v.dayNumber + 3600 * ((hour + 1 : Nat) : Int) := by
    simp only [u]
    omega
  have place : u.dayNumber = v.dayNumber ∧ u.hour = hour :=
    hour_eq_of_bounds (Int.le_max_right _ _) high (Nat.lt_of_le_of_lt reached bound)
  exact ⟨u, Int.le_max_left _ _, high, place⟩

theorem atMinute_le {minute : Nat} (h : minute ≤ 60) : w.atMinute minute ≤ w.atMinute 60 := by
  show w.startOfHour.seconds + 60 * minute ≤ w.startOfHour.seconds + 60 * ((60 : Nat) : Int)
  omega

theorem atSecond_le {second : Nat} (h : second ≤ 60) : w.atSecond second ≤ w.atMinute 60 := by
  show w.seconds / 60 * 60 + second ≤ w.seconds / 3600 * 3600 + 60 * ((60 : Nat) : Int)
  omega

end WallClock

theorem Zone.skipsHour_startOfHour (z : Zone) (w : WallClock) :
    z.skipsHour w.startOfHour = z.skipsHour w := by
  rw [skipsHour, skipsHour, w.startOfHour_startOfHour]

namespace Rule

variable {r : Rule} {z : Zone} {after t : Instant} {stop : Option WallClock} {lastYear : Int}
  {w v next : WallClock}

/-! ## Steps within an hour -/

theorem le_of_minuteCarry? (hr : r.IsWellFormed) (h : r.minuteCarry? w = some next) :
    next ≤ w.atMinute 60 := by
  rcases r.minutes.next?_cases w.minute with
    ⟨found, member⟩ | ⟨minute, found, later, member, _⟩ | ⟨found, _⟩
  · rw [minuteCarry?_eq_none_iff.2 member] at h
    cases h
  · simp only [minuteCarry?, found, if_pos later, Option.some.injEq] at h
    subst h
    exact WallClock.atMinute_le (Nat.le_of_lt (hr.minutes minute member))
  · simp only [minuteCarry?, found, Option.some.injEq] at h
    subst h
    exact Int.le_refl _

theorem le_of_secondCarry? (hr : r.IsWellFormed) (h : r.secondCarry? w = some next) :
    next ≤ w.atMinute 60 := by
  unfold secondCarry? at h
  split at h
  · split at h
    · rename_i second found
      split at h
      · cases h
        have bound := hr.seconds second (BitSet.next?_eq_some_iff.1 found).2.1
        exact WallClock.atSecond_le (Nat.le_of_lt bound)
      · cases h
    · cases h
      exact WallClock.atSecond_le (Nat.le_refl 60)
  · split at h
    · cases h
    · cases h
      exact WallClock.atSecond_le (Nat.le_refl 60)

theorem le_of_unit (h : r.carry? z w = none) :
    (⟨w.seconds + r.unit⟩ : WallClock) ≤ w.atMinute 60 := by
  have whole := unit_dvd_of_admits (carry?_eq_none_iff.1 h).1
  show w.seconds + r.unit ≤ w.seconds / 3600 * 3600 + 60 * ((60 : Nat) : Int)
  rcases r.unit_eq with unit | unit
  · rw [unit]
    omega
  · rw [unit] at whole ⊢
    omega

namespace GivesUpFrom

/-- Within an hour that the zone keeps no skipped hour is passed. -/
theorem of_kept (h : r.GivesUpFrom z w v) (kept : z.skipsHour w = false)
    (inside : next ≤ w.atMinute 60) : r.GivesUpFrom z next v := by
  obtain ⟨hour, admitted, reached, skipped, ahead⟩ := h
  refine ⟨hour, admitted, reached, skipped, ?_⟩
  by_cases passed : v.atHour (hour + 1) ≤ next
  · rw [WallClock.atHour_eq_startOfHour ahead (Int.le_trans passed inside), z.skipsHour_startOfHour,
      kept] at skipped
    cases skipped
  · exact Int.not_le.1 passed

/-- Nor is one passed where no time that is passed has an admitted hour on the same day. -/
theorem of_closed (h : r.GivesUpFrom z w v)
    (closed : ∀ u, w ≤ u → u < next → u.dayNumber = v.dayNumber →
      r.hours.getLsbD u.hour = false) : r.GivesUpFrom z next v := by
  obtain ⟨hour, admitted, reached, skipped, ahead⟩ := h
  refine ⟨hour, admitted, reached, skipped, ?_⟩
  by_cases passed : v.atHour (hour + 1) ≤ next
  · obtain ⟨u, hle, hlt, sameDay, sameHour⟩ := WallClock.exists_in_hour ahead reached
    have shut := closed u hle (Int.lt_of_lt_of_le hlt passed) sameDay
    rw [sameHour, admitted] at shut
    cases shut
  · exact Int.not_le.1 passed

/-- A carry does not pass a skipped hour that the rule admits and stay on the day, if the rule
selects the day. -/
theorem of_carry (hr : r.IsWellFormed) (carried : r.carry? z w = some next)
    (met : r.admits v = true) (order : next ≤ v) (h : r.GivesUpFrom z w v) :
    r.GivesUpFrom z next v := by
  obtain ⟨month, day, _⟩ := admits_iff.1 met
  have date {u : WallClock} (same : u.dayNumber = v.dayNumber) : u.date = v.date :=
    congrArg Date.ofDayNumber same
  simp only [carry?, Option.orElse_eq_orElse, Option.orElse_eq_or, Option.or_eq_some_iff] at carried
  rcases carried with carried | ⟨_, carried | ⟨_, carried | ⟨keeps, carried | ⟨_, carried⟩⟩⟩⟩
  · apply h.of_closed
    intro u hle hlt same
    have other := month_of_monthCarry? hr carried hle hlt
    rw [date same, month] at other
    cases other
  · apply h.of_closed
    intro u hle hlt same
    have other := day_of_dayCarry? carried hle hlt
    rw [date same, day] at other
    cases other
  · apply h.of_closed
    intro u hle hlt same
    rcases hour_of_hourCarry? hr carried hle hlt with closed | ⟨rfl, _⟩
    · exact closed
    · -- the carry leaves the day of `w`, which is that of `v`
      have left := WallClock.lt_midnight_iff.1 hlt
      have onward := WallClock.dayNumber_mono hle
      have inside : v < w.nextDay := WallClock.lt_midnight_iff.2 (same ▸ left)
      exact absurd order (Int.not_le.2 inside)
  · exact h.of_kept (hourCarry?_eq_none_iff.1 keeps).2 (le_of_minuteCarry? hr carried)
  · exact h.of_kept (hourCarry?_eq_none_iff.1 keeps).2 (le_of_secondCarry? hr carried)

theorem of_unit (stays : r.carry? z w = none) (h : r.GivesUpFrom z w v) :
    r.GivesUpFrom z ⟨w.seconds + r.unit⟩ v :=
  h.of_kept (carry?_eq_none_iff.1 stays).2 (le_of_unit stays)

end GivesUpFrom

/-! ## Runs -/

/-- A time that is given up from itself lies in an hour that the zone skips. -/
theorem skipsHour_of_givesUpFrom_self (h : r.GivesUpFrom z w w) : z.skipsHour w = true := by
  obtain ⟨hour, _, reached, skipped, ahead⟩ := h
  have split := w.seconds_eq
  have ahead : w.seconds < 86400 * w.dayNumber + 3600 * ((hour + 1 : Nat) : Int) := ahead
  obtain rfl : hour = w.hour := by omega
  rwa [z.skipsHour_atHour] at skipped

/-- A search does not answer with a time that was given up from its start. -/
theorem not_givesUpFrom_of_search (hr : r.IsWellFormed) (hz : z.IsRegular)
    (h : r.search z after stop lastYear w = some t) : ¬r.GivesUpFrom z w (z.wallClock t) := by
  have shown {w : WallClock} (found : z.firstInstant? w after = some t) : z.wallClock t = w :=
    (Zone.firstInstant?_spec hz found).1.2.2
  fun_induction search r z after stop lastYear w with
  | case1 => cases h
  | case2 w _ next carried _ ih =>
    intro givenUp
    obtain ⟨c, reached, _, met, found, _⟩ := search_eq_some hr h
    rw [← shown found] at reached met
    exact ih h (givenUp.of_carry hr carried met reached)
  | case3 => cases h
  | case4 w _ carried t' found =>
    cases h
    intro givenUp
    rw [shown found] at givenUp
    have skipped := skipsHour_of_givesUpFrom_self givenUp
    rw [(carry?_eq_none_iff.1 carried).2] at skipped
    cases skipped
  | case5 w _ carried gone next _ ih =>
    intro givenUp
    exact ih h (givenUp.of_unit carried)
  | case6 => cases h

/-! ## The next occurrence from two instants -/

/-- The search that found the next occurrence set out behind its approach. -/
theorem exists_start_of_nextInstant? (hr : r.IsWellFormed) (hz : z.IsRegular)
    (h : r.nextInstant? z after = some t) :
    ∃ start, r.startAfter? (z.approach after t) = some start ∧
      ¬r.GivesUpFrom z start (z.wallClock t) := by
  obtain ⟨_, start, began, answer⟩ := nextInstant?_eq_some h
  cases (earlier_eq_some answer).1 with
  | inl found =>
    obtain ⟨started, _⟩ := startAfter?_eq_some began
    have hit := (searchFrom_eq_some hr hz found).1
    have ahead : ¬z.wallClock t ≤ z.wallClock after :=
      Int.not_le.2 (Int.lt_of_lt_of_le started hit.start_le)
    rw [Zone.approach, if_neg ahead]
    exact ⟨start, began, not_givesUpFrom_of_search hr hz found⟩
  | inr found =>
    obtain ⟨w, start, rewound, began, found⟩ := searchRepeated_eq_some found
    obtain ⟨hit, stopped⟩ := searchFrom_eq_some hr hz found
    have behind := stopped _ rfl
    rw [Zone.rewound?_eq hz ((Instant.lt_iff_seconds_lt hit.whole).1 hit.later) behind] at rewound
    cases rewound
    rw [Zone.approach, if_pos behind]
    exact ⟨start, began, not_givesUpFrom_of_search hr hz found⟩

/-- Of two times from which searches set out for a third one, the second, up to one unit of the
rule, is past an hour that the first is not past: an hour of the third time's day, no later than its
own, which the rule admits and the zone skips. -/
def SkipsBetween (r : Rule) (z : Zone) (w w' v : WallClock) : Prop :=
  ∃ hour, r.hours.getLsbD hour = true ∧ hour ≤ v.hour ∧ z.skipsHour (v.atHour hour) = true ∧
    w < v.atHour (hour + 1) ∧ (v.atHour (hour + 1)).seconds ≤ w'.seconds + r.unit

theorem skipsBetween_of_nextInstant?_lt {after' t' : Instant} (hr : r.IsWellFormed)
    (hz : z.IsRegular) (ha : after.InRange) (hle : after ≤ after')
    (h : r.nextInstant? z after = some t) (h' : r.nextInstant? z after' = some t')
    (before : t' < t) :
    r.SkipsBetween z (z.approach after t') (z.approach after' t') (z.wallClock t') := by
  obtain ⟨_, hit⟩ := exists_hit_of_nextInstant? hr hz h'
  have later : after < t' := Int.lt_of_le_of_lt hle hit.later
  obtain ⟨start, began, hour, admitted, reached, skipped, ahead⟩ :=
    givesUpFrom_of_nextInstant? hr hz ha h hit.whole later before hit.met
  obtain ⟨start', began', kept⟩ := exists_start_of_nextInstant? hr hz h'
  obtain ⟨started, _⟩ := startAfter?_eq_some began
  obtain ⟨_, close, _⟩ := startAfter?_eq_some began'
  -- the search from `after'` answers with the time, so it starts when the hour is over
  have reaches : (z.wallClock t').atHour (hour + 1) ≤ start' := by
    apply Int.not_lt.1
    intro ahead'
    exact kept ⟨hour, admitted, reached, skipped, ahead'⟩
  exact ⟨hour, admitted, reached, skipped, Int.lt_trans started ahead, Int.le_trans reaches close⟩

/-- **The next occurrence grows with the instant**, save where the search from the earlier instant
gives up the day on which the later one has its next occurrence, and the search from the later one
sets out too late on that day to do so. Where the zone skips no hour, there is no exception. -/
theorem nextAfter?_mono {m m' n n' : Moment} (hr : r.IsConstructible) (hz : m.zone.IsRegular)
    (ha : m.instant.InRange) (zone : m'.zone = m.zone) (hle : m.instant ≤ m'.instant)
    (h : r.nextAfter? m = some n) (h' : r.nextAfter? m' = some n') :
    (n.instant ≤ n'.instant ∨
      r.SkipsBetween m.zone (m.zone.approach m.instant n'.instant)
        (m.zone.approach m'.instant n'.instant) n'.wallClock) ∧
    ((∀ w, m.zone.skipsHour w = false) → n.instant ≤ n'.instant) := by
  obtain ⟨_, found⟩ := nextAfter?_eq_some h
  obtain ⟨zone', found'⟩ := nextAfter?_eq_some h'
  rw [zone] at zone' found'
  have shown : n'.wallClock = m.zone.wallClock n'.instant := by rw [Moment.wallClock, zone']
  have order : n.instant ≤ n'.instant ∨
      r.SkipsBetween m.zone (m.zone.approach m.instant n'.instant)
        (m.zone.approach m'.instant n'.instant) n'.wallClock := by
    by_cases before : n'.instant < n.instant
    · rw [shown]
      exact .inr (skipsBetween_of_nextInstant?_lt hr.isWellFormed hz ha hle found found' before)
    · exact .inl (Int.not_lt.1 before)
  refine ⟨order, fun noSkip => ?_⟩
  cases order with
  | inl le => exact le
  | inr exception =>
    obtain ⟨hour, admitted, reached, skipped, _⟩ := exception
    exact absurd ⟨hour, admitted, reached, skipped⟩ (not_givesUp noSkip)

/-- From one o'clock on 9 March the search gives up that day, which has no half past two; from three
o'clock on it finds half past twelve. -/
theorem nextAfter?_halfPast_lt :
    halfPast.IsConstructible ∧ Zone.summer2025.IsRegular ∧
      Instant.ofSeconds 1741500000 ≤ .ofSeconds 1741503600 ∧
      halfPast.nextAfter? ⟨.ofSeconds 1741500000, .summer2025⟩ =
        some ⟨.ofSeconds 1741588200, .summer2025⟩ ∧
      halfPast.nextAfter? ⟨.ofSeconds 1741503600, .summer2025⟩ =
        some ⟨.ofSeconds 1741537800, .summer2025⟩ ∧
      Instant.ofSeconds 1741537800 < .ofSeconds 1741588200 :=
  ⟨isConstructible_halfPast, Zone.isRegular_summer2025, by decide, by decide +kernel,
    by decide +kernel, by decide⟩

/-- The first search sets out before the skipped hour from two to three o'clock, the second one
behind it. -/
theorem skipsBetween_halfPast :
    halfPast.SkipsBetween .summer2025
      (Zone.summer2025.approach (.ofSeconds 1741500000) (.ofSeconds 1741537800))
      (Zone.summer2025.approach (.ofSeconds 1741503600) (.ofSeconds 1741537800))
      (Zone.summer2025.wallClock (.ofSeconds 1741537800)) := by
  have first : halfPast.nextAfter? ⟨.ofSeconds 1741500000, .summer2025⟩ =
      some ⟨.ofSeconds 1741588200, .summer2025⟩ := by decide +kernel
  have second : halfPast.nextAfter? ⟨.ofSeconds 1741503600, .summer2025⟩ =
      some ⟨.ofSeconds 1741537800, .summer2025⟩ := by decide +kernel
  have mono := nextAfter?_mono isConstructible_halfPast Zone.isRegular_summer2025 (by decide)
    (by rfl) (by decide) first second
  exact mono.1.resolve_left (by decide)

end Rule

end Recurrence
