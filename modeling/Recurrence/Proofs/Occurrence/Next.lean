import Recurrence.Proofs.Occurrence.Search

/-!
# The next occurrence

Two searches look for the next occurrence after an instant. The forward one sees the instants whose
time lies ahead on the wall; those whose time does not, because the clock is set back in between,
are left to the other one. They set out behind different times (`Zone.approach`). Each kind is dealt
with by two lemmas, for a search that finds an instant (`IsHit.givesUpFrom_of_ahead`,
`IsHit.givesUpFrom_of_behind`) and for one that finds none (`givesUpFrom_of_forward_eq_none`,
`givesUpFrom_of_repeated_eq_none`). The results on the next occurrence, of both searches together,
follow: it meets the rule, and what it leaves out is given up for an hour that the zone skips.
-/

namespace Recurrence

/-- The time of the wall clock behind which a search after `t` sets out for `x`: the one that the
clock shows at `t`, or, where the time of `x` does not lie ahead of it, that of `t` in the offset of
`x`. -/
def Zone.approach (z : Zone) (t x : Instant) : WallClock :=
  if z.wallClock x ≤ z.wallClock t then ⟨t.seconds + z.offsetAt x⟩ else z.wallClock t

namespace Rule

variable {r : Rule} {z : Zone} {after t x : Instant} {stop : Option WallClock}
  {start w v : WallClock}

/-- An instant that a search from `start` on may answer with. -/
structure IsHit (r : Rule) (z : Zone) (after : Instant) (start : WallClock) (t : Instant) :
    Prop where
  whole : t.IsWhole
  inRange : t.InRange
  later : after < t
  met : r.admits (z.wallClock t) = true
  start_le : start ≤ z.wallClock t
  missed : r.NothingMissed z after start (z.wallClock t)
  least : ∀ x : Instant, x.IsWhole → x.InRange → z.wallClock x = z.wallClock t → after < x → t ≤ x

/-- Every search answers with a hit that lies within its bounds. -/
theorem searchFrom_eq_some (hr : r.IsWellFormed) (hz : z.IsRegular)
    (h : r.searchFrom z after stop start = some t) :
    r.IsHit z after start t ∧ ∀ bound, stop = some bound → z.wallClock t ≤ bound := by
  obtain ⟨c, hle, hstop, met, found, missed⟩ := search_eq_some hr h
  obtain ⟨⟨whole, inRange, rfl⟩, later, least⟩ := Zone.firstInstant?_spec hz found
  exact ⟨⟨whole, inRange, later, met, hle, missed, least⟩, hstop⟩

theorem searchFrom_eq_none (hr : r.IsWellFormed) (h : r.searchFrom z after stop start = none)
    (hle : start ≤ v) (hlast : v ≤ .last) (hstop : ∀ bound, stop = some bound → v ≤ bound)
    (hyear : v.date.year ≤ start.date.year + cycleYears) : r.Passable z after start v :=
  search_eq_none hr h hle hlast hstop hyear

/-- An instant that is still ahead makes its time one at which a search stops. -/
theorem Passable.givesUpFrom (hz : z.IsRegular) (h : r.Passable z after w (z.wallClock x))
    (whole : x.IsWhole) (inRange : x.InRange) (later : after < x)
    (met : r.admits (z.wallClock x) = true) : r.GivesUpFrom z w (z.wallClock x) := by
  rcases h met with givenUp | gone
  · exact givenUp
  · exact absurd later ((Zone.firstInstant?_eq_none_iff hz).1 gone x whole inRange rfl)

/-! ## The clock near an instant -/

theorem year_le_of_close (h : v.seconds ≤ w.seconds + 86400 * cycleDays) :
    v.date.year ≤ w.date.year + cycleYears := by
  have order : v.dayNumber ≤ w.dayNumber + cycleDays := by
    unfold WallClock.dayNumber
    unfold cycleDays at *
    omega
  have moved := Date.year_mono order
  rw [Date.ofDayNumber_add_cycle] at moved
  exact moved

theorem wallClock_le_last (hz : z.IsRegular) (h : x.InRange) : z.wallClock x ≤ .last := by
  have bounds := Zone.offsetAt_bounds hz x
  have upper := h.2
  show x.seconds + z.offsetAt x ≤ 253402300799
  unfold Zone.largestOffset at bounds
  unfold Instant.lastSecond at upper
  omega

theorem inRange_of_between (ha : after.InRange) (ht : t.InRange) (h : after.seconds ≤ x.seconds)
    (h' : x.seconds ≤ t.seconds) : x.InRange :=
  ⟨Int.le_trans ha.1 h, Int.le_trans h' ht.2⟩

theorem seconds_between (ha : after.InRange) (wholeT : t.IsWhole) (ht : t.InRange)
    (whole : x.IsWhole) (later : after < x) (before : x < t) :
    after.seconds < x.seconds ∧ x.seconds < t.seconds ∧ x.InRange := by
  have afterSeconds := (Instant.lt_iff_seconds_lt whole).1 later
  have beforeSeconds := (Instant.lt_iff_seconds_lt wholeT).1 before
  exact ⟨afterSeconds, beforeSeconds,
    inRange_of_between ha ht (Int.le_of_lt afterSeconds) (Int.le_of_lt beforeSeconds)⟩

/-! ## Instants whose time lies ahead -/

/-- The forward search leaves out, before its answer and ahead on the wall, only what is given
up. -/
theorem IsHit.givesUpFrom_of_ahead (hz : z.IsRegular) (ha : after.InRange)
    (hstart : z.wallClock after < start) (h : r.IsHit z after start t) (whole : x.IsWhole)
    (later : after < x) (before : x < t) (met : r.admits (z.wallClock x) = true)
    (reached : start ≤ z.wallClock x) : r.GivesUpFrom z start (z.wallClock x) := by
  obtain ⟨afterSeconds, beforeSeconds, inRange⟩ :=
    seconds_between ha h.whole h.inRange whole later before
  rcases Int.lt_trichotomy (z.wallClock x).seconds (z.wallClock t).seconds with hlt | heq | hgt
  · exact (h.missed _ reached hlt).givesUpFrom hz whole inRange later met
  · have first := h.least x whole inRange (congrArg WallClock.mk heq) later
    exact absurd before (Int.not_lt.2 first)
  · -- On its way to the time of `x` the clock shows that of `t`, so `t` is not the first.
    obtain ⟨y, wholeY, laterY, beforeY, shown⟩ := Zone.exists_wallClock_eq hz
      (Int.le_of_lt afterSeconds) (Int.lt_of_lt_of_le hstart h.start_le) (Int.le_of_lt hgt) rfl
    have inRangeY := inRange_of_between ha inRange (Int.le_of_lt laterY) beforeY
    have first := h.least y wholeY inRangeY shown ((Instant.lt_iff_seconds_lt wholeY).2 laterY)
    have := (Instant.le_iff_seconds_le h.whole wholeY).1 first
    omega

/-- A forward search without an answer has left out, up to an instant at which the clock has not yet
come past `after`'s time, only what is given up. -/
theorem givesUpFrom_of_forward_eq_none (hr : r.IsWellFormed) (hz : z.IsRegular)
    (hstart : z.wallClock after < start) (h : r.searchFrom z after none start = none)
    (whole : x.IsWhole) (inRange : x.InRange) (later : after < x) (before : x.seconds < t.seconds)
    (behind : z.wallClock t ≤ z.wallClock after) (met : r.admits (z.wallClock x) = true)
    (reached : start ≤ z.wallClock x) : r.GivesUpFrom z start (z.wallClock x) := by
  have close : (z.wallClock x).seconds ≤ start.seconds + 86400 * cycleDays := by
    have hstart : after.seconds + z.offsetAt after < start.seconds := hstart
    have behind : t.seconds + z.offsetAt t ≤ after.seconds + z.offsetAt after := behind
    have boundsX := Zone.offsetAt_bounds hz x
    have boundsT := Zone.offsetAt_bounds hz t
    show x.seconds + z.offsetAt x ≤ _
    unfold Zone.largestOffset cycleDays at *
    omega
  have passable := searchFrom_eq_none hr h reached (wallClock_le_last hz inRange)
    (fun _ none => nomatch none) (year_le_of_close close)
  exact passable.givesUpFrom hz whole inRange later met

/-! ## Instants whose time does not lie ahead -/

/-- The search in the repeated hour leaves out, before its answer and not ahead on the wall, only
what is given up. -/
theorem IsHit.givesUpFrom_of_behind (hz : z.IsRegular) (ha : after.InRange)
    (h : r.IsHit z after start t) (whole : x.IsWhole) (later : after < x) (before : x < t)
    (met : r.admits (z.wallClock x) = true) (behind : z.wallClock x ≤ z.wallClock after)
    (reached : start ≤ z.wallClock x) : r.GivesUpFrom z start (z.wallClock x) := by
  obtain ⟨afterSeconds, beforeSeconds, inRange⟩ :=
    seconds_between ha h.whole h.inRange whole later before
  have ahead : (z.wallClock x).seconds < (z.wallClock t).seconds :=
    Zone.clock_lt_clock hz afterSeconds beforeSeconds behind
  exact (h.missed _ reached ahead).givesUpFrom hz whole inRange later met

theorem searchRepeated_eq (rewound : z.rewound? after = some w)
    (began : r.startAfter? w = some start) :
    r.searchRepeated z after = r.searchFrom z after (some (z.wallClock after)) start := by
  rw [searchRepeated, rewound, Option.bind_eq_bind, Option.bind_some, began]
  rfl

/-- A search in the repeated hour without an answer has left out only what is given up. -/
theorem givesUpFrom_of_repeated_eq_none (hr : r.IsWellFormed) (hz : z.IsRegular)
    (h : r.searchRepeated z after = none) (whole : x.IsWhole) (inRange : x.InRange)
    (later : after < x) (met : r.admits (z.wallClock x) = true)
    (behind : z.wallClock x ≤ z.wallClock after) :
    ∃ start, r.startAfter? ⟨after.seconds + z.offsetAt x⟩ = some start ∧
      r.GivesUpFrom z start (z.wallClock x) := by
  have afterSeconds := (Instant.lt_iff_seconds_lt whole).1 later
  have ahead : (⟨after.seconds + z.offsetAt x⟩ : WallClock) < z.wallClock x :=
    Int.add_lt_add_right afterSeconds (z.offsetAt x)
  have hlast := wallClock_le_last hz inRange
  have rewind := Zone.rewound?_eq hz afterSeconds behind
  cases began : r.startAfter? ⟨after.seconds + z.offsetAt x⟩ with
  | none => exact absurd hlast (Int.not_le.2 (startAfter?_eq_none began met ahead))
  | some start =>
    obtain ⟨rewound, _, next⟩ := startAfter?_eq_some began
    have close : (z.wallClock x).seconds ≤ start.seconds + 86400 * cycleDays := by
      have rewound : after.seconds + z.offsetAt x < start.seconds := rewound
      have behind : (z.wallClock x).seconds ≤ after.seconds + z.offsetAt after := behind
      have boundsX := Zone.offsetAt_bounds hz x
      have boundsAfter := Zone.offsetAt_bounds hz after
      unfold Zone.largestOffset cycleDays at *
      omega
    rw [searchRepeated_eq rewind began] at h
    have passable := searchFrom_eq_none hr h (next _ met ahead) hlast
      (fun bound same => by cases same; exact behind) (year_le_of_close close)
    exact ⟨start, rfl, passable.givesUpFrom hz whole inRange later met⟩

/-! ## Both searches together -/

theorem nextInstant?_eq_some (h : r.nextInstant? z after = some t) :
    r.isFeasible = true ∧ ∃ start, r.startAfter? (z.wallClock after) = some start ∧
      earlier (r.searchFrom z after none start) (r.searchRepeated z after) = some t := by
  unfold nextInstant? at h
  split at h
  · rename_i feasible
    exact ⟨feasible, Option.bind_eq_some_iff.1 h⟩
  · cases h

theorem searchRepeated_eq_some (h : r.searchRepeated z after = some t) :
    ∃ w start, z.rewound? after = some w ∧ r.startAfter? w = some start ∧
      r.searchFrom z after (some (z.wallClock after)) start = some t := by
  obtain ⟨w, rewound, h⟩ := Option.bind_eq_some_iff.1 h
  obtain ⟨start, began, found⟩ := Option.bind_eq_some_iff.1 h
  exact ⟨w, start, rewound, began, found⟩

/-- The earlier of two answers is one of them, and later than neither. -/
theorem earlier_eq_some {a b : Option Instant} (h : earlier a b = some t) :
    (a = some t ∨ b = some t) ∧ (∀ u, a = some u → t ≤ u) ∧ (∀ u, b = some u → t ≤ u) := by
  have bound {v : Instant} (le : t ≤ v) : ∀ u, some v = some u → t ≤ u := by
    intro u same
    cases same
    exact le
  match a, b with
  | some u, some v =>
    rw [earlier] at h
    split at h
    · rename_i less
      cases h
      exact ⟨.inr rfl, bound (Int.le_of_lt less), bound (Int.le_refl _)⟩
    · rename_i notLess
      cases h
      exact ⟨.inl rfl, bound (Int.le_refl _), bound (Int.not_lt.1 notLess)⟩
  | some u, none =>
    cases h
    exact ⟨.inl rfl, bound (Int.le_refl _), nofun⟩
  | none, some v =>
    cases h
    exact ⟨.inr rfl, nofun, bound (Int.le_refl _)⟩

/-- An answer of either search is an instant ahead at which the rule is met. -/
theorem exists_hit_of_nextInstant? (hr : r.IsWellFormed) (hz : z.IsRegular)
    (h : r.nextInstant? z after = some t) : ∃ start, r.IsHit z after start t := by
  obtain ⟨_, start, _, answer⟩ := nextInstant?_eq_some h
  rcases (earlier_eq_some answer).1 with found | found
  · exact ⟨start, (searchFrom_eq_some hr hz found).1⟩
  · obtain ⟨_, start, _, _, found⟩ := searchRepeated_eq_some found
    exact ⟨start, (searchFrom_eq_some hr hz found).1⟩

/-- What meets the rule before the next occurrence is given up on the way from where the search sets
out. -/
theorem givesUpFrom_of_nextInstant? (hr : r.IsWellFormed) (hz : z.IsRegular) (ha : after.InRange)
    (h : r.nextInstant? z after = some t) (whole : x.IsWhole) (later : after < x) (before : x < t)
    (met : r.admits (z.wallClock x) = true) :
    ∃ start, r.startAfter? (z.approach after x) = some start ∧
      r.GivesUpFrom z start (z.wallClock x) := by
  obtain ⟨_, hit⟩ := exists_hit_of_nextInstant? hr hz h
  obtain ⟨_, start, began, answer⟩ := nextInstant?_eq_some h
  obtain ⟨started, _, next⟩ := startAfter?_eq_some began
  obtain ⟨source, leForward, leRepeated⟩ := earlier_eq_some answer
  obtain ⟨afterSeconds, beforeSeconds, inRange⟩ :=
    seconds_between ha hit.whole hit.inRange whole later before
  by_cases behind : z.wallClock x ≤ z.wallClock after
  · rw [Zone.approach, if_pos behind]
    cases repeated : r.searchRepeated z after with
    | none => exact givesUpFrom_of_repeated_eq_none hr hz repeated whole inRange later met behind
    | some u =>
      obtain ⟨w, start, rewound, began, found⟩ := searchRepeated_eq_some repeated
      rw [Zone.rewound?_eq hz afterSeconds behind] at rewound
      cases rewound
      have reached := (startAfter?_eq_some began).2.2 _ met
        (Int.add_lt_add_right afterSeconds (z.offsetAt x))
      refine ⟨start, began, ?_⟩
      exact (searchFrom_eq_some hr hz found).1.givesUpFrom_of_behind hz ha whole later
        (Int.lt_of_lt_of_le before (leRepeated u repeated)) met behind reached
  · rw [Zone.approach, if_neg behind]
    refine ⟨start, began, ?_⟩
    have reached := next _ met (Int.not_le.1 behind)
    cases forward : r.searchFrom z after none start with
    | none =>
      rcases source with same | repeated
      · rw [forward] at same
        cases same
      · obtain ⟨_, _, _, _, found⟩ := searchRepeated_eq_some repeated
        have stopped := (searchFrom_eq_some hr hz found).2 _ rfl
        exact givesUpFrom_of_forward_eq_none hr hz started forward whole inRange later beforeSeconds
          stopped met reached
    | some u =>
      exact (searchFrom_eq_some hr hz forward).1.givesUpFrom_of_ahead hz ha started whole later
        (Int.lt_of_lt_of_le before (leForward u forward)) met reached

theorem givesUp_of_nextInstant? (hr : r.IsWellFormed) (hz : z.IsRegular) (ha : after.InRange)
    (h : r.nextInstant? z after = some t) (whole : x.IsWhole) (later : after < x) (before : x < t)
    (met : r.admits (z.wallClock x) = true) : r.GivesUp z (z.wallClock x) := by
  obtain ⟨_, _, givenUp⟩ := givesUpFrom_of_nextInstant? hr hz ha h whole later before met
  exact givenUp.givesUp

theorem nextAfter?_eq_some {m n : Moment} (h : r.nextAfter? m = some n) :
    n.zone = m.zone ∧ r.nextInstant? m.zone m.instant = some n.instant := by
  obtain ⟨t, found, rfl⟩ := Option.map_eq_some_iff.1 h
  exact ⟨rfl, found⟩

/-- **Every answer satisfies the rule**: the next occurrence is a later whole second, in the same
zone, whose own wall-clock time meets the rule. -/
theorem isMetBy_of_nextAfter? {m n : Moment} (hr : r.IsConstructible) (hz : m.zone.IsRegular)
    (h : r.nextAfter? m = some n) :
    m.instant < n.instant ∧ n.instant.IsWhole ∧
      (r.hasSeconds = false → n.wallClock.second = 0) ∧ n.zone = m.zone ∧
      r.isMetBy n = true := by
  obtain ⟨zone, found⟩ := nextAfter?_eq_some h
  obtain ⟨_, hit⟩ := exists_hit_of_nextInstant? hr.isWellFormed hz found
  have met : r.isMetBy n = true := by
    rw [isMetBy, Moment.wallClock, zone]
    exact hit.met
  refine ⟨hit.later, hit.whole, ?_, zone, met⟩
  intro noSeconds
  obtain ⟨_, _, _, _, second⟩ := admits_iff.1 met
  rw [admitsSecond, noSeconds] at second
  exact of_decide_eq_true second

/-- **Nothing is skipped**, except what a wholly skipped hour gives up: a time that meets the rule
before the next occurrence lies on a day of which the zone skips an hour that the rule admits, and
no earlier on that day. Where the zone skips no hour, the next occurrence is the least instant that
is later and meets the rule. -/
theorem givesUp_of_lt_nextAfter? {m n : Moment} (hr : r.IsConstructible) (hz : m.zone.IsRegular)
    (ha : m.instant.InRange) (h : r.nextAfter? m = some n) :
    (∀ x : Instant, x.IsWhole → m.instant < x → x < n.instant → r.isMetBy ⟨x, m.zone⟩ = true →
      r.GivesUp m.zone (m.zone.wallClock x)) ∧
    ((∀ w, m.zone.skipsHour w = false) →
      (n.instant.IsWhole ∧ m.instant < n.instant ∧ r.isMetBy ⟨n.instant, m.zone⟩ = true) ∧
      ∀ x : Instant, x.IsWhole → m.instant < x → r.isMetBy ⟨x, m.zone⟩ = true →
        n.instant ≤ x) := by
  obtain ⟨_, found⟩ := nextAfter?_eq_some h
  obtain ⟨_, hit⟩ := exists_hit_of_nextInstant? hr.isWellFormed hz found
  have skipped : ∀ x : Instant, x.IsWhole → m.instant < x → x < n.instant →
      r.isMetBy ⟨x, m.zone⟩ = true → r.GivesUp m.zone (m.zone.wallClock x) :=
    fun x whole later before met =>
      givesUp_of_nextInstant? hr.isWellFormed hz ha found whole later before met
  refine ⟨skipped, fun noSkip => ⟨⟨hit.whole, hit.later, hit.met⟩, fun x whole later met => ?_⟩⟩
  by_cases before : x < n.instant
  · obtain ⟨hour, _, _, skips⟩ := skipped x whole later before met
    rw [noSkip] at skips
    cases skips
  · exact Int.not_lt.1 before

end Rule

/-! ## A zone with summer time -/

/-- Five hours west of universal time, one hour less from 9 March to 2 November 2025. -/
def Zone.summer2025 : Zone := ⟨-18000, [⟨1741503600, -14400⟩, ⟨1762063200, -18000⟩]⟩

theorem Zone.isRegular_summer2025 : summer2025.IsRegular where
  apart := by decide
  initial_bounds := by decide
  offset_bounds := by decide

namespace Rule

/-- Half past two and half past twelve, every day. -/
def halfPast : Rule := ⟨0xfff, 0x7fffffff, 0, 0, 0, 0x1004, 0x40000000, 0⟩

theorem isConstructible_halfPast : halfPast.IsConstructible :=
  .inl ⟨[.values .minute [30], .values .hour [2, 12]], rfl⟩

/-- From half past twelve in the winter the search goes past the whole of 9 March, which has no half
past two. -/
theorem nextAfter?_halfPast :
    halfPast.nextAfter? ⟨.ofSeconds 1741455000, .summer2025⟩ =
      some ⟨.ofSeconds 1741588200, .summer2025⟩ := by decide +kernel

/-- The answer after the day that was given up is half past two on 10 March. -/
theorem isMetBy_halfPast :
    Instant.ofSeconds 1741455000 < Instant.ofSeconds 1741588200 ∧
      halfPast.isMetBy ⟨.ofSeconds 1741588200, .summer2025⟩ = true := by
  have next := isMetBy_of_nextAfter? isConstructible_halfPast Zone.isRegular_summer2025
    nextAfter?_halfPast
  exact ⟨next.1, next.2.2.2.2⟩

/-- Half past twelve on 9 March is what it gave up. -/
theorem givesUp_halfPast :
    halfPast.isMetBy ⟨.ofSeconds 1741537800, .summer2025⟩ = true ∧
      halfPast.GivesUp .summer2025 (Zone.summer2025.wallClock (.ofSeconds 1741537800)) :=
  ⟨by decide, (givesUp_of_lt_nextAfter? isConstructible_halfPast Zone.isRegular_summer2025
    (by decide) nextAfter?_halfPast).1 _ (by decide) (by decide) (by decide) (by decide)⟩

end Rule

end Recurrence
