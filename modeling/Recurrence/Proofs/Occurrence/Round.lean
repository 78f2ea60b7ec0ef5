import Recurrence.Proofs.Occurrence.Next

/-!
# Rounds of a search

A search goes round by round. In each round the fields of the rule are asked once about a time
(`Rule.resolve?`): all admit it, or it is carried to a later one, or the calendar ends. What a
carry passes over is given up for the hour that it leaves, and where the calendar ends, all that
is left is so (`Rule.resolves_resolve?`). Every round that does not end the search goes on from a
later time within the calendar, so that the rounds come to an end, and to the answer of the search
(`Rule.exists_rounds_eq_ends`).
-/

namespace Recurrence

namespace Rule

variable {r : Rule} {z : Zone} {w v next : WallClock}

/-! ## One pass over the fields -/

/-- What the fields of a rule make of a time. -/
inductive Step
  /-- Some field does not admit it, or its hour is skipped: the search goes on later. -/
  | carry (next : WallClock)
  /-- All fields admit it. -/
  | meets (w : WallClock)
deriving DecidableEq, Repr

/-- One pass over the fields, from the month down to the second; none where the calendar ends. -/
def resolve? (r : Rule) (z : Zone) (w : WallClock) : Option Step :=
  match r.carry? z w with
  | some next => if next ≤ .last then some (.carry next) else none
  | none => some (.meets w)

/-- A time is given up on the day of an earlier one: an hour of that day, no later than its own, is
admitted by the rule and skipped by the zone. -/
def GivesUpOn (r : Rule) (z : Zone) (w v : WallClock) : Prop :=
  v.date = w.date ∧ r.GivesUp z v

/-- The outcomes of a pass that are right. A time that is met is the given one, each field admits
it, and its hour is kept. A carry leads to a later time of the calendar, a whole number of the
rule's units, and passes over no time that the rule admits but those that are given up; and where
the calendar ends, no others are left. -/
inductive Resolves (r : Rule) (z : Zone) (w : WallClock) : Option Step → Prop
  | meets (month : r.months.getLsbD (w.date.month - 1) = true)
      (day : (r.daySet w.date.year w.date.month).getLsbD (w.date.day - 1) = true)
      (hour : r.hours.getLsbD w.hour = true) (minute : r.minutes.getLsbD w.minute = true)
      (second : r.admitsSecond w.second = true) (kept : z.skipsHour w = false) :
      Resolves r z w (some (.meets w))
  | carry {next : WallClock} (later : w < next) (inside : next ≤ .last)
      (whole : r.unit ∣ next.seconds)
      (passed : ∀ v, w ≤ v → v < next → r.admits v = true → r.GivesUpOn z w v) :
      Resolves r z w (some (.carry next))
  | ended (passed : ∀ v, w ≤ v → v ≤ .last → r.admits v = true → r.GivesUpOn z w v) :
      Resolves r z w none

/-- What a carry passes over although the rule admits it is given up on the same day. -/
theorem givesUpOn_of_carry? (hr : r.IsWellFormed) (h : r.carry? z w = some next) (hle : w ≤ v)
    (hlt : v < next) (met : r.admits v = true) : r.GivesUpOn z w v := by
  obtain ⟨leaves, givenUp⟩ := nextDay_of_carry? hr h hle hlt met
  rw [leaves, WallClock.nextDay_eq] at hlt
  obtain ⟨sameDay, _, _⟩ := WallClock.hour_of_lt_atHour hle hlt (Nat.le_refl 24)
  exact ⟨congrArg Date.ofDayNumber sameDay, givenUp.givesUp⟩

/-- Every pass has an outcome that is right. -/
theorem resolves_resolve? (hr : r.IsWellFormed) (z : Zone) (w : WallClock) :
    r.Resolves z w (r.resolve? z w) := by
  unfold resolve?
  cases carried : r.carry? z w with
  | none =>
    obtain ⟨met, kept⟩ := carry?_eq_none_iff.1 carried
    obtain ⟨month, day, hour, minute, second⟩ := admits_iff.1 met
    exact .meets month day hour minute second kept
  | some next =>
    simp only
    split
    · rename_i inside
      exact .carry (lt_of_carry? carried) inside (unit_dvd_of_carry? carried)
        fun v hle hlt => givesUpOn_of_carry? hr carried hle hlt
    · rename_i outside
      exact .ended fun v hle hlast =>
        givesUpOn_of_carry? hr carried hle (Int.lt_of_le_of_lt hlast (Int.not_le.1 outside))

/-! ## Rounds -/

/-- What a round of a search comes to. -/
inductive Round
  | goesOn (next : WallClock)
  | ends (answer : Option Instant)
deriving DecidableEq, Repr

/-- Another round, unless the search has ended. -/
def Round.andThen (again : WallClock → Round) : Round → Round
  | .goesOn next => again next
  | .ends answer => .ends answer

/-- One round of a search after an instant, which ends past `lastYear`, and past `stop` if there is
one. -/
def round (r : Rule) (z : Zone) (after : Instant) (stop : Option WallClock) (lastYear : Int)
    (w : WallClock) : Round :=
  if lastYear < w.date.year ∨ stop.any (· < w) then .ends none
  else
    match r.resolve? z w with
    | none => .ends none
    | some (.carry next) => .goesOn next
    | some (.meets c) =>
      if stop.any (· < c) then .ends none
      else
        match z.firstInstant? c after with
        | some t => .ends (some t)
        | none =>
          let next : WallClock := ⟨c.seconds + r.unit⟩
          if next ≤ .last then .goesOn next else .ends none

/-- A number of rounds, fewer where they end. -/
def rounds (r : Rule) (z : Zone) (after : Instant) (stop : Option WallClock) (lastYear : Int) :
    Nat → WallClock → Round
  | 0, w => .goesOn w
  | n + 1, w => (r.round z after stop lastYear w).andThen (rounds r z after stop lastYear n)

/-- A round goes on with the rest of the search, later and within the calendar, or ends it with its
answer. -/
theorem round_cases (r : Rule) (z : Zone) (after : Instant) (stop : Option WallClock)
    (lastYear : Int) (w : WallClock) :
    (∃ next, r.round z after stop lastYear w = .goesOn next ∧ w < next ∧ next ≤ .last ∧
      r.search z after stop lastYear w = r.search z after stop lastYear next) ∨
    r.round z after stop lastYear w = .ends (r.search z after stop lastYear w) := by
  rw [search_eq]
  unfold round resolve?
  by_cases outside : lastYear < w.date.year ∨ stop.any (· < w)
  · rw [if_pos outside, if_pos outside]
    exact .inr rfl
  · rw [if_neg outside, if_neg outside]
    cases carried : r.carry? z w with
    | some next =>
      by_cases inside : next ≤ .last
      · simp only [if_pos inside]
        exact .inl ⟨next, rfl, lt_of_carry? carried, inside, rfl⟩
      · simp only [if_neg inside]
        exact .inr trivial
    | none =>
      have going : ¬stop.any (· < w) = true := mt Or.inr outside
      simp only [if_neg going]
      cases z.firstInstant? w after with
      | some t => exact .inr rfl
      | none =>
        by_cases inside : (⟨w.seconds + r.unit⟩ : WallClock) ≤ .last
        · simp only [if_pos inside]
          exact .inl ⟨_, rfl, r.lt_unit w, inside, rfl⟩
        · simp only [if_neg inside]
          exact .inr trivial

/-- **The rounds of a search come to an end**, whichever time they start from: at the latest when
all seconds of the calendar have been passed, and with the answer of the search. -/
theorem exists_rounds_eq_ends (r : Rule) (z : Zone) (after : Instant) (stop : Option WallClock)
    (lastYear : Int) (w : WallClock) :
    ∃ n ≤ (WallClock.last.seconds - w.seconds).toNat + 1,
      r.rounds z after stop lastYear n w = .ends (r.search z after stop lastYear w) := by
  -- What is left of the calendar shrinks with each round that goes on.
  generalize left : (WallClock.last.seconds - w.seconds).toNat = k
  induction k using Nat.strongRecOn generalizing w with
  | ind k ih =>
    rcases r.round_cases z after stop lastYear w with ⟨next, goesOn, later, inside, same⟩ | ends
    · have later : w.seconds < next.seconds := later
      have inside : next.seconds ≤ WallClock.last.seconds := inside
      obtain ⟨n, few, ended⟩ := ih (WallClock.last.seconds - next.seconds).toNat (by omega) next rfl
      refine ⟨n + 1, by omega, ?_⟩
      rw [rounds, goesOn, same]
      exact ended
    · refine ⟨1, by omega, ?_⟩
      rw [rounds, ends]
      rfl

/-- **A pass over the fields is right, and the passes come to an end.** Whatever a pass makes of a
time, it passes over nothing that the rule admits but what is given up on the same day; and from
whichever time a search starts, after finitely many rounds it ends with its answer. -/
theorem resolve?_isExact (hr : r.IsConstructible) (z : Zone) (w : WallClock) :
    r.Resolves z w (r.resolve? z w) ∧
      ∀ after stop lastYear, ∃ n ≤ (WallClock.last.seconds - w.seconds).toNat + 1,
        r.rounds z after stop lastYear n w = .ends (r.search z after stop lastYear w) :=
  ⟨resolves_resolve? hr.isWellFormed z w,
    fun after stop lastYear => exists_rounds_eq_ends r z after stop lastYear w⟩

/-- From two o'clock on 9 March, which is skipped, the pass leads to the next day. -/
theorem resolve?_halfPast :
    halfPast.resolve? .summer2025 ⟨1741485600⟩ = some (.carry ⟨1741564800⟩) ∧
      halfPast.Resolves .summer2025 ⟨1741485600⟩ (some (.carry ⟨1741564800⟩)) ∧
      ∃ n, halfPast.rounds .summer2025 (.ofSeconds 1741500000) none 2425 n ⟨1741485600⟩ =
        .ends (some (.ofSeconds 1741588200)) := by
  have carried : halfPast.resolve? .summer2025 ⟨1741485600⟩ = some (.carry ⟨1741564800⟩) := by
    decide +kernel
  have found : halfPast.search .summer2025 (.ofSeconds 1741500000) none 2425 ⟨1741485600⟩ =
      some (.ofSeconds 1741588200) := by decide +kernel
  obtain ⟨right, ended⟩ := resolve?_isExact isConstructible_halfPast .summer2025 ⟨1741485600⟩
  obtain ⟨n, _, answer⟩ := ended (.ofSeconds 1741500000) none 2425
  rw [carried] at right
  rw [found] at answer
  exact ⟨carried, right, n, answer⟩

end Rule

end Recurrence
