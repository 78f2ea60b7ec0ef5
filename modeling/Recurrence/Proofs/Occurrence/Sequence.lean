import Recurrence.Occurrence.Sequence
import Recurrence.Proofs.Occurrence.Never

/-!
# Sequences of occurrences

A sequence goes from each occurrence to the next one (`Rule.IsRun`). In a zone that skips no hour
such a run leaves out nothing that it passes (`Rule.IsRun.mem_or_lt`). It may stop early: where a
search ends without an answer, what is still to come is out of reach (`Rule.OutOfReach`). In a zone
with one offset nothing is, so that a bounded sequence is the list of all occurrences up to its
limit.
-/

namespace Recurrence

attribute [ext] Moment

namespace Rule

variable {r : Rule} {m n x : Moment} {ns : List Moment}

/-- A moment at which a rule occurs. -/
structure OccursAt (r : Rule) (x : Moment) : Prop where
  whole : x.instant.IsWhole
  inRange : x.instant.InRange
  met : r.isMetBy x = true

/-- The search after a moment ends before it comes to `x`: the clock shows `x` more than a cycle of
the calendar after the time from which the search starts. Nothing is said of a search that has no
time to start from. -/
def OutOfReach (r : Rule) (m x : Moment) : Prop :=
  ∀ start, r.startAfter? m.wallClock = some start →
    start.date.year + cycleYears < x.wallClock.date.year

/-! ## One step -/

theorem occursAt_of_nextAfter? (hr : r.IsWellFormed) (hz : m.zone.IsRegular)
    (h : r.nextAfter? m = some n) : r.OccursAt n := by
  obtain ⟨zone, found⟩ := nextAfter?_eq_some h
  obtain ⟨_, hit⟩ := exists_hit_of_nextInstant? hr hz found
  have shown : n.wallClock = m.zone.wallClock n.instant := by rw [Moment.wallClock, zone]
  exact ⟨hit.whole, hit.inRange, by rw [isMetBy, shown]; exact hit.met⟩

theorem lt_of_nextAfter? (h : r.nextAfter? m = some n) : m.instant < n.instant :=
  (bounds_of_nextInstant? (nextAfter?_eq_some h).2).1

section Kept

variable (hr : r.IsWellFormed) (hz : m.zone.IsRegular) (kept : ∀ w, m.zone.skipsHour w = false)
  (zone : x.zone = m.zone) (occurs : r.OccursAt x) (later : m.instant < x.instant)
include hr hz kept zone occurs later

theorem nextAfter?_le (ha : m.instant.InRange) (h : r.nextAfter? m = some n) :
    n.instant ≤ x.instant := by
  apply Int.not_lt.1
  intro before
  have met := occurs.met
  rw [isMetBy, Moment.wallClock, zone] at met
  exact not_givesUp kept
    (givesUp_of_nextInstant? hr hz ha (nextAfter?_eq_some h).2 occurs.whole later before met)

/-- Where there is no next occurrence, those that there are all the same are out of reach. -/
theorem outOfReach_of_nextAfter?_eq_none (h : r.nextAfter? m = none) : r.OutOfReach m x := by
  have shown : x.wallClock = m.zone.wallClock x.instant := by rw [Moment.wallClock, zone]
  have met := occurs.met
  rw [isMetBy, shown] at met
  intro start began
  rw [shown]
  have feasible := isFeasible_of_admitsDate (WallClock.isProper_date _) (admitsDate_of_admits met)
  have none := Option.map_eq_none_iff.1 h
  rw [nextInstant?, if_pos feasible, ← Moment.wallClock, began] at none
  obtain ⟨forward, repeated⟩ := earlier_eq_none none
  apply Int.not_le.1
  intro close
  by_cases behind : m.zone.wallClock x.instant ≤ m.zone.wallClock m.instant
  · obtain ⟨_, _, givenUp⟩ := givesUpFrom_of_repeated_eq_none hr hz repeated occurs.whole
      occurs.inRange later met behind
    exact not_givesUp kept givenUp.givesUp
  · have reached := (startAfter?_eq_some began).2.2 _ met (Int.not_le.1 behind)
    have passable := searchFrom_eq_none hr forward reached (wallClock_le_last hz occurs.inRange)
      (by rintro _ ⟨⟩) close
    have givenUp := passable.givesUpFrom hz occurs.whole occurs.inRange later met
    exact not_givesUp kept givenUp.givesUp

end Kept

/-! ## Runs -/

/-- Each moment of a list is the next occurrence after the one before it, and the first one is that
after a given moment. -/
inductive IsRun (r : Rule) : Moment → List Moment → Prop
  | nil {m : Moment} : IsRun r m []
  | cons {m n : Moment} {ns : List Moment} (next : r.nextAfter? m = some n) (rest : IsRun r n ns) :
      IsRun r m (n :: ns)

namespace IsRun

theorem zone_eq (h : r.IsRun m ns) : ∀ n ∈ ns, n.zone = m.zone := by
  induction h with
  | nil =>
    intro x member
    cases member
  | cons next rest ih =>
    have zone := (nextAfter?_eq_some next).1
    intro x member
    cases member with
    | head => exact zone
    | tail _ member => exact (ih x member).trans zone

theorem ascending (h : r.IsRun m ns) : (m :: ns).Pairwise (·.instant < ·.instant) := by
  induction h with
  | nil => exact List.pairwise_singleton _ _
  | cons next rest ih =>
    have later := lt_of_nextAfter? next
    refine List.pairwise_cons.2 ⟨fun x member => ?_, ih⟩
    cases member with
    | head => exact later
    | tail _ member => exact Int.lt_trans later ((List.pairwise_cons.1 ih).1 x member)

theorem occursAt (h : r.IsRun m ns) (hr : r.IsWellFormed) (hz : m.zone.IsRegular) :
    ∀ n ∈ ns, r.OccursAt n := by
  induction h with
  | nil =>
    intro x member
    cases member
  | cons next rest ih =>
    intro x member
    cases member with
    | head => exact occursAt_of_nextAfter? hr hz next
    | tail _ member => exact ih ((nextAfter?_eq_some next).1 ▸ hz) x member

/-- The moment at which a run has arrived is the one after which it sets out, or one of its own. -/
theorem last (h : r.IsRun m ns) (hr : r.IsWellFormed) (hz : m.zone.IsRegular)
    (ha : m.instant.InRange) : (ns.getLastD m).zone = m.zone ∧ (ns.getLastD m).instant.InRange := by
  cases List.mem_cons.1 (List.getLastD_mem_cons (a := m) (l := ns)) with
  | inl same =>
    rw [same]
    exact ⟨rfl, ha⟩
  | inr member => exact ⟨h.zone_eq _ member, (h.occursAt hr hz _ member).inRange⟩

theorem nextAfter?_of_getElem? (h : r.IsRun m ns) {i : Nat} (hx : ns[i]? = some x)
    (hn : ns[i + 1]? = some n) : r.nextAfter? x = some n := by
  induction h generalizing i with
  | nil => cases hx
  | cons next rest ih =>
    cases i with
    | zero =>
      cases hx
      cases rest with
      | nil => cases hn
      | cons next' rest' =>
        cases hn
        exact next'
    | succ i => exact ih hx hn

/-- A run leaves out no occurrence that it passes. -/
theorem mem_or_lt (h : r.IsRun m ns) (hr : r.IsWellFormed) (hz : m.zone.IsRegular)
    (kept : ∀ w, m.zone.skipsHour w = false) (ha : m.instant.InRange) (zone : x.zone = m.zone)
    (occurs : r.OccursAt x) (later : m.instant < x.instant) :
    x ∈ ns ∨ (ns.getLastD m).instant < x.instant := by
  induction h with
  | nil => exact .inr later
  | cons next rest ih =>
    have same := (nextAfter?_eq_some next).1
    have le := nextAfter?_le hr hz kept zone occurs later ha next
    rw [List.getLastD_cons, List.mem_cons]
    cases Int.lt_or_eq_of_le le with
    | inl beyond =>
      rw [or_assoc]
      exact .inr (ih (same ▸ hz) (same ▸ kept) (occursAt_of_nextAfter? hr hz next).inRange
        (zone.trans same.symm) beyond)
    | inr equal =>
      have instants : x.instant = _ := congrArg Instant.mk equal.symm
      exact .inl (.inl (Moment.ext instants (zone.trans same.symm)))

end IsRun

end Rule

/-! ## Sequences -/

namespace Occurrences

variable {r : Rule} {m : Moment} {limit : Instant}

theorem head?_occurrences (r : Rule) (m : Moment) : (r.occurrences m).head? = r.nextAfter? m := by
  show (r.nextAfter? m).filter (r.occurrences m).admits = r.nextAfter? m
  cases r.nextAfter? m <;> rfl

theorem head?_occurrencesUpTo (r : Rule) (m : Moment) (limit : Instant) :
    (r.occurrencesUpTo m limit).head? = (r.nextAfter? m).filter (·.instant ≤ limit) :=
  rfl

theorem nextAfterN_succ (r : Rule) (m : Moment) (k : Nat) :
    r.nextAfterN m (k + 1) = match r.nextAfter? m with
      | some n => n :: r.nextAfterN n k
      | none => [] := by
  rw [Rule.nextAfterN, take, next, head?_occurrences]
  cases r.nextAfter? m <;> rfl

/-- The first occurrences of a sequence are a run, which is shorter than asked for only where it
comes to an end. -/
theorem isRun_take (r : Rule) (m : Moment) (k : Nat) :
    r.IsRun m ((r.occurrences m).take k).1 ∧ ((r.occurrences m).take k).1.length ≤ k ∧
      (((r.occurrences m).take k).1.length < k →
        r.nextAfter? (((r.occurrences m).take k).1.getLastD m) = none) := by
  induction k generalizing m with
  | zero => exact ⟨.nil, Nat.le_refl 0, nofun⟩
  | succ k ih =>
    have step := nextAfterN_succ r m k
    rw [Rule.nextAfterN] at step
    rw [step]
    cases next : r.nextAfter? m with
    | none => exact ⟨.nil, Nat.zero_le _, fun _ => next⟩
    | some n =>
      obtain ⟨run, length, ended⟩ := ih n
      refine ⟨.cons next run, Nat.succ_le_succ length, fun short => ?_⟩
      simp only [List.getLastD_cons]
      exact ended (Nat.lt_of_succ_lt_succ short)

/-- A bounded sequence is a run up to its limit, behind which the next occurrence lies. -/
theorem isRun_remaining (r : Rule) (m : Moment) (limit : Instant) :
    r.IsRun m (r.occurrencesUpTo m limit).remaining ∧
      (∀ n ∈ (r.occurrencesUpTo m limit).remaining, n.instant ≤ limit) ∧
      ∀ n, r.nextAfter? ((r.occurrencesUpTo m limit).remaining.getLastD m) = some n →
        limit < n.instant := by
  generalize same : r.occurrencesUpTo m limit = s
  fun_induction remaining s generalizing m with
  | case1 s n found ih =>
    subst same
    rw [head?_occurrencesUpTo] at found
    obtain ⟨next, within⟩ := Option.filter_eq_some_iff.1 found
    obtain ⟨run, bounded, ended⟩ := ih n rfl
    refine ⟨.cons next run, List.forall_mem_cons.2 ⟨of_decide_eq_true within, bounded⟩, ?_⟩
    rw [List.getLastD_cons]
    exact ended
  | case2 s found =>
    subst same
    rw [head?_occurrencesUpTo, Option.filter_eq_none_iff] at found
    refine ⟨.nil, nofun, fun n next => ?_⟩
    exact Int.not_le.1 fun within => found n next (decide_eq_true within)

end Occurrences

namespace Rule

variable {r : Rule} {m x : Moment}

/-- In a zone with one offset the next occurrence comes no later than any other one. -/
theorem exists_nextAfter?_le {offset : Int} (hr : r.IsWellFormed)
    (hoffset : -Zone.largestOffset ≤ offset ∧ offset ≤ Zone.largestOffset)
    (fixed : m.zone = .fixed offset) (ha : m.instant.InRange) (zone : x.zone = .fixed offset)
    (occurs : r.OccursAt x) (later : m.instant < x.instant) :
    ∃ n, r.nextAfter? m = some n ∧ n.instant ≤ x.instant := by
  have hz : m.zone.IsRegular := fixed ▸ Zone.isRegular_fixed hoffset
  have kept : ∀ w, m.zone.skipsHour w = false := fixed ▸ Zone.skipsHour_fixed
  cases next : r.nextAfter? m with
  | none =>
    have none := Option.map_eq_none_iff.1 next
    rw [fixed] at none
    have never := not_admits_of_nextInstant?_eq_none hr hoffset ha none occurs.whole occurs.inRange
      later
    have met := occurs.met
    rw [isMetBy, Moment.wallClock, zone, never] at met
    cases met
  | some n => exact ⟨n, rfl, nextAfter?_le hr hz kept (zone.trans fixed.symm) occurs later ha next⟩

/-- In a zone with one offset a bounded sequence holds just the occurrences up to its limit. -/
theorem mem_remaining_iff {offset : Int} {after limit : Instant} (hr : r.IsWellFormed)
    (hoffset : -Zone.largestOffset ≤ offset ∧ offset ≤ Zone.largestOffset) (ha : after.InRange)
    (hlimit : limit.InRange) :
    x ∈ (r.occurrencesUpTo ⟨after, .fixed offset⟩ limit).remaining ↔
      x.zone = .fixed offset ∧ x.instant.IsWhole ∧ after < x.instant ∧ x.instant ≤ limit ∧
        r.isMetBy x = true := by
  have hz := Zone.isRegular_fixed hoffset
  obtain ⟨run, bounded, ended⟩ :=
    Occurrences.isRun_remaining r ⟨after, .fixed offset⟩ limit
  constructor
  · intro member
    have occurs := run.occursAt hr hz x member
    have later := (List.pairwise_cons.1 run.ascending).1 x member
    exact ⟨run.zone_eq x member, occurs.whole, later, bounded x member, occurs.met⟩
  · intro h
    obtain ⟨zone, whole, later, within, met⟩ := h
    have inRange : x.instant.InRange :=
      ⟨Int.le_trans ha.1 (Instant.seconds_le_of_lt later),
        Int.le_trans (Instant.seconds_le_of_le within) hlimit.2⟩
    have occurs : r.OccursAt x := ⟨whole, inRange, met⟩
    cases run.mem_or_lt hr hz Zone.skipsHour_fixed ha zone occurs later with
    | inl member => exact member
    | inr beyond =>
      obtain ⟨lastZone, lastInRange⟩ := run.last hr hz ha
      obtain ⟨n, next, le⟩ :=
        exists_nextAfter?_le hr hoffset lastZone lastInRange zone occurs beyond
      exact absurd (Int.lt_of_lt_of_le (ended n next) le) (Int.not_lt.2 within)

/-- A list enumerates the first `k` occurrences after a moment: they ascend, none is left out up to
the last of them, and where there are fewer than `k`, all others are out of reach of a search from
there. -/
structure Enumerates (r : Rule) (m : Moment) (k : Nat) (ns : List Moment) : Prop where
  ascending : (m :: ns).Pairwise (·.instant < ·.instant)
  occurs : ∀ n ∈ ns, n.zone = m.zone ∧ r.OccursAt n
  least : ∀ x : Moment, x.zone = m.zone → r.OccursAt x → m.instant < x.instant →
    x ∈ ns ∨ (ns.getLastD m).instant < x.instant
  length_le : ns.length ≤ k
  complete : ns.length < k → ∀ x : Moment, x.zone = m.zone → r.OccursAt x →
    (ns.getLastD m).instant < x.instant → r.OutOfReach (ns.getLastD m) x

/-- **Enumeration is exact.** In a zone that skips no hour the first `k` occurrences of a sequence
are the `k` least ones, each pass of a repeated time included, but for those that a search does not
reach. In a zone with one offset a bounded sequence holds just the occurrences up to its limit. -/
theorem enumerates_occurrences (r : Rule) (hr : r.IsConstructible) :
    (∀ (m : Moment) (k : Nat), m.zone.IsRegular → (∀ w, m.zone.skipsHour w = false) →
      m.instant.InRange → r.Enumerates m k ((r.occurrences m).take k).1) ∧
    ∀ (offset : Int) (after : Instant) (limit : Moment),
      -Zone.largestOffset ≤ offset ∧ offset ≤ Zone.largestOffset → after.InRange →
      limit.instant.InRange →
      (r.occurrencesUpTo ⟨after, .fixed offset⟩ limit.instant).remaining.Pairwise
        (·.instant < ·.instant) ∧
      ∀ x : Moment, x ∈ (r.occurrencesUpTo ⟨after, .fixed offset⟩ limit.instant).remaining ↔
        x.zone = .fixed offset ∧ x.instant.IsWhole ∧ after < x.instant ∧
          x.instant ≤ limit.instant ∧ r.isMetBy x = true := by
  have wellFormed := hr.isWellFormed
  constructor
  · intro m k hz kept ha
    obtain ⟨run, length, ended⟩ := Occurrences.isRun_take r m k
    obtain ⟨lastZone, lastInRange⟩ := run.last wellFormed hz ha
    refine ⟨run.ascending, ?_, ?_, length, ?_⟩
    · intro n member
      exact ⟨run.zone_eq n member, run.occursAt wellFormed hz n member⟩
    · intro x zone occurs later
      exact run.mem_or_lt wellFormed hz kept ha zone occurs later
    · intro short x zone occurs later
      rw [← lastZone] at hz kept zone
      exact outOfReach_of_nextAfter?_eq_none wellFormed hz kept zone occurs later (ended short)
  · intro offset after limit hoffset ha hlimit
    obtain ⟨run, _⟩ := Occurrences.isRun_remaining r ⟨after, .fixed offset⟩ limit.instant
    exact ⟨(List.pairwise_cons.1 run.ascending).2,
      fun x => mem_remaining_iff wellFormed hoffset ha hlimit⟩

end Rule

/-! ## A repeated half hour -/

/-- At half past one the clock is set back to one o'clock. -/
def Zone.halfHourBack : Zone := ⟨1800, [⟨3600, 0⟩]⟩

theorem Zone.isRegular_halfHourBack : halfHourBack.IsRegular where
  apart := by decide
  initial_bounds := by decide
  offset_bounds := by decide

/-- Every quarter of an hour. -/
def Rule.quarterHours : Rule := ⟨0xfff, 0x7fffffff, 0, 0, 0, 0xffffff, 0x200040008001, 0⟩

theorem Rule.isConstructible_quarterHours : quarterHours.IsConstructible :=
  .inl ⟨[.range .minute 0 (-1) 15], rfl⟩

/-- After one o'clock comes a quarter past one, then both once more. A limit at a quarter of an hour
lets that one through. -/
theorem Rule.enumerates_quarterHours :
    quarterHours.Enumerates ⟨.ofSeconds 1800, .halfHourBack⟩ 4
        ([2700, 3600, 4500, 5400].map fun seconds => ⟨.ofSeconds seconds, .halfHourBack⟩) ∧
      (⟨.ofSeconds 900, .fixed 0⟩ : Moment) ∈
        (quarterHours.occurrencesUpTo ⟨.ofSeconds 0, .fixed 0⟩ (.ofSeconds 900)).remaining := by
  have exact := enumerates_occurrences quarterHours isConstructible_quarterHours
  have kept := Zone.skipsHour_eq_false Zone.isRegular_halfHourBack (by decide) (by decide)
  have taken : ((quarterHours.occurrences ⟨.ofSeconds 1800, .halfHourBack⟩).take 4).1 =
      [2700, 3600, 4500, 5400].map fun seconds => ⟨.ofSeconds seconds, .halfHourBack⟩ := by
    decide +kernel
  constructor
  · rw [← taken]
    exact exact.1 ⟨.ofSeconds 1800, .halfHourBack⟩ 4 Zone.isRegular_halfHourBack kept (by decide)
  · have bounded := exact.2 0 (.ofSeconds 0) ⟨.ofSeconds 900, .utc⟩ (by decide) (by decide)
      (by decide)
    exact (bounded.2 ⟨.ofSeconds 900, .fixed 0⟩).2 (by decide)

/-! ## Occurrences out of reach -/

/-- At a quarter past two on each of the thirteen last days of February from 2028 to 2400 that are
Tuesdays and lengthen the year, the clock is set a minute forward. -/
def Zone.leapTuesdays : Zone :=
  ⟨0, [⟨1835403300, 60⟩, ⟨2719016040, 120⟩, ⟨3602628780, 180⟩, ⟨4864846320, 240⟩,
    ⟨5748459060, 300⟩, ⟨6632071800, 360⟩, ⟨7894289340, 420⟩, ⟨8777902080, 480⟩,
    ⟨9661514820, 540⟩, ⟨10923732360, 600⟩, ⟨11807345100, 660⟩, ⟨12690957840, 720⟩,
    ⟨13574570580, 780⟩]⟩

theorem Zone.isRegular_leapTuesdays : leapTuesdays.IsRegular where
  apart := by decide
  initial_bounds := by decide
  offset_bounds := by decide

/-- A quarter past two on such days. -/
def Rule.leapTuesdays : Rule := ⟨0x2, 0x10000000, 0, 0, 0x4, 0x4, 0x8000, 0⟩

theorem Rule.isConstructible_leapTuesdays : leapTuesdays.IsConstructible :=
  .inr ⟨{}, "15 2 29 2 &2", rfl⟩

/-- The search after the leap Tuesday of 2000 ends before it comes to that of 2428, the next one on
which the clock shows a quarter past two. -/
theorem Rule.take_leapTuesdays :
    leapTuesdays.IsConstructible ∧ Zone.leapTuesdays.IsRegular ∧
      (∀ w, Zone.leapTuesdays.skipsHour w = false) ∧ (Instant.ofSeconds 951790500).InRange ∧
      ((leapTuesdays.occurrences ⟨.ofSeconds 951790500, .leapTuesdays⟩).take 1).1 = [] ∧
      Instant.ofSeconds 951790500 < .ofSeconds 14458183320 ∧
      leapTuesdays.OccursAt ⟨.ofSeconds 14458183320, .leapTuesdays⟩ := by
  have kept := Zone.skipsHour_eq_false Zone.isRegular_leapTuesdays (by decide) (by decide)
  have none : ((leapTuesdays.occurrences ⟨.ofSeconds 951790500, .leapTuesdays⟩).take 1).1 = [] := by
    decide +kernel
  exact ⟨isConstructible_leapTuesdays, Zone.isRegular_leapTuesdays, kept, by decide, none,
    by decide, ⟨by decide, by decide, by decide⟩⟩

end Recurrence
