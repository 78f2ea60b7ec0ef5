import Recurrence.Occurrence.Carry
import Recurrence.Moment

/-!
# The next occurrence

The next occurrence of a rule after an instant is found on the wall clock: from the first time that
is later, by carries, up to a time that meets the rule and has an instant later than the given one.
Since dates and weekdays repeat every 400 years, a search that has crossed that many gives up.

An instant in the first pass of a repeated hour needs a second search. Its wall-clock time will come
again, so an occurrence of the second pass can lie at an earlier time of the wall clock; that search
starts where the clock is set back to and stops at the instant's own time. The earlier of the two
answers counts.
-/

namespace Recurrence

namespace Rule

/-- The years after which the calendar repeats, weekdays included. -/
def cycleYears : Int := 400

/-- The first time that a rule can tell from `w` and that is later, unless the calendar ends before
it. -/
def startAfter? (r : Rule) (w : WallClock) : Option WallClock :=
  WallClock.upTo? <| (if r.hasSeconds then w else w.startOfMinute).seconds + r.unit

/-- Walks the wall clock forward from `w` to the first time that meets a rule and has an instant
later than `after`, and returns that instant. The walk ends at the end of the calendar, past
`lastYear`, and past `stop` if there is one. -/
def search (r : Rule) (z : Zone) (after : Instant) (stop : Option WallClock) (lastYear : Int)
    (w : WallClock) : Option Instant :=
  if lastYear < w.date.year ∨ stop.any (· < w) then none
  else
    match _h : r.carry? z w with
    | some next => if next ≤ .last then search r z after stop lastYear next else none
    | none =>
      match z.firstInstant? w after with
      | some t => some t
      | none =>
        let next : WallClock := ⟨w.seconds + r.unit⟩
        if next ≤ .last then search r z after stop lastYear next else none
termination_by (WallClock.last.seconds + 1 - w.seconds).toNat
decreasing_by
  · have forward : w.seconds < next.seconds :=
      lt_of_carry? ‹r.carry? z w = some next›
    have inside : next.seconds ≤ WallClock.last.seconds := ‹next ≤ WallClock.last›
    omega
  · have forward : 0 < r.unit := by unfold Rule.unit; split <;> omega
    have inside : w.seconds + r.unit ≤ WallClock.last.seconds := ‹next ≤ WallClock.last›
    show (WallClock.last.seconds + 1 - (w.seconds + r.unit)).toNat < _
    omega

/-! ## Answers lie ahead and within range -/

/-- An instant at a whole second is not later than the last of the range. -/
theorem le_of_atSecond? {seconds : Int} {t : Instant} (h : Instant.atSecond? seconds = some t) :
    t ≤ .ofSeconds Instant.lastSecond := by
  unfold Instant.atSecond? at h
  split at h
  · cases h
    show seconds * Instant.perSecond ≤ Instant.lastSecond * Instant.perSecond
    simp only [Instant.perSecond]
    omega
  · simp at h

theorem bounds_of_firstInstant? {z : Zone} {w : WallClock} {after t : Instant}
    (h : z.firstInstant? w after = some t) : after < t ∧ t ≤ .ofSeconds Instant.lastSecond := by
  refine ⟨by simpa using List.find?_some h, ?_⟩
  have found := List.mem_of_find?_eq_some h
  simp only [Zone.instants, List.mem_filterMap] at found
  obtain ⟨_, _, ht⟩ := found
  exact le_of_atSecond? ht

theorem bounds_of_search {r : Rule} {z : Zone} {after t : Instant} {stop : Option WallClock}
    {lastYear : Int} {w : WallClock} (h : r.search z after stop lastYear w = some t) :
    after < t ∧ t ≤ .ofSeconds Instant.lastSecond := by
  fun_induction search r z after stop lastYear w <;> simp_all
  exact bounds_of_firstInstant? ‹_›

/-- Searches for at most one cycle of the calendar from `start` on. -/
def searchFrom (r : Rule) (z : Zone) (after : Instant) (stop : Option WallClock)
    (start : WallClock) : Option Instant :=
  r.search z after stop (start.date.year + cycleYears) start

/-- The next occurrence in the second pass of a repeated hour, for an instant in its first pass. -/
def searchRepeated (r : Rule) (z : Zone) (after : Instant) : Option Instant := do
  let rewound ← z.rewound? after
  let start ← r.startAfter? rewound
  r.searchFrom z after (some (z.wallClock after)) start

def earlier : Option Instant → Option Instant → Option Instant
  | some t, some u => if u < t then some u else some t
  | some t, none => some t
  | none, answer => answer

/-- The first instant after `after` at which a rule is met in a zone. -/
def nextInstant? (r : Rule) (z : Zone) (after : Instant) : Option Instant :=
  if r.isFeasible then do
    let start ← r.startAfter? (z.wallClock after)
    earlier (r.searchFrom z after none start) (r.searchRepeated z after)
  else none

theorem bounds_of_nextInstant? {r : Rule} {z : Zone} {after t : Instant}
    (h : r.nextInstant? z after = some t) : after < t ∧ t ≤ .ofSeconds Instant.lastSecond := by
  have repeated : ∀ {u}, r.searchRepeated z after = some u →
      after < u ∧ u ≤ .ofSeconds Instant.lastSecond := by
    intro u hu
    simp only [searchRepeated, Option.bind_eq_bind, Option.bind_eq_some_iff] at hu
    obtain ⟨_, _, _, _, found⟩ := hu
    exact bounds_of_search found
  unfold nextInstant? at h
  split at h
  · simp only [Option.bind_eq_bind, Option.bind_eq_some_iff] at h
    obtain ⟨start, _, h⟩ := h
    unfold earlier at h
    split at h
    · split at h
      · cases h; exact repeated ‹_›
      · cases h; exact bounds_of_search ‹_›
    · cases h; exact bounds_of_search ‹_›
    · exact repeated h
  · simp at h

/-- The first moment after `m`, in the same zone, at which a rule is met. -/
def nextAfter? (r : Rule) (m : Moment) : Option Moment :=
  (r.nextInstant? m.zone m.instant).map fun t => ⟨t, m.zone⟩

end Rule

end Recurrence
