import Mathlib.Data.List.Find
import Recurrence.Proofs.Occurrence.Repeated

/-!
# Instants that a rule cannot tell apart

The next occurrence depends on an instant only as far as the rule's own unit goes
(`Rule.nextAfter?_eq_of_sameUnit`). Two instants of one minute, with no change of the offset in
between, let the forward search set out at the same time of the wall clock, and all that it reads
from there on is the same for both (`Rule.search_congr`). In a repeated hour the two searches set
out at different times, and perhaps only one of them does at all; but the same instants come back
after both (`Rule.comesBack_iff`), and the first of those is what they look for.
-/

namespace Recurrence

/-! ## The clock between two instants -/

namespace Zone

variable {z : Zone} {t t' x : Instant} {w : WallClock}

/-- No change of the offset lies between two instants, the second one included. -/
def KeepsOffset (z : Zone) (t t' : Instant) : Prop :=
  ∀ c ∈ z.transitions, ¬(t < .ofSeconds c.start ∧ .ofSeconds c.start ≤ t')

instance (z : Zone) (t t' : Instant) : Decidable (z.KeepsOffset t t') :=
  inferInstanceAs (Decidable (∀ c ∈ z.transitions, _))

theorem offsetFrom_eq {offset s u : Int} {ts : List Transition}
    (same : ∀ c ∈ ts, s < c.start ↔ u < c.start) :
    offsetFrom offset ts s = offsetFrom offset ts u := by
  induction ts generalizing offset with
  | nil => rfl
  | cons c ts ih =>
    have rest : offsetFrom c.offset ts s = offsetFrom c.offset ts u :=
      ih fun d hd => same d (List.mem_cons_of_mem c hd)
    simp only [offsetFrom, same c List.mem_cons_self, rest]

theorem offsetAt_eq_of_between (kept : z.KeepsOffset t t') (hle : t.seconds ≤ x.seconds)
    (hle' : x.seconds ≤ t'.seconds) : z.offsetAt x = z.offsetAt t' := by
  apply offsetFrom_eq
  intro c hc
  have whole := Instant.isWhole_ofSeconds c.start
  have apart : ¬(t.seconds < c.start ∧ c.start ≤ t'.seconds) := by
    intro between
    refine kept c hc ⟨(Instant.lt_iff_seconds_lt whole).2 ?_, Int.not_lt.1 fun before => ?_⟩
    · rw [Instant.seconds_ofSeconds]
      exact between.1
    · have before := (Instant.lt_iff_seconds_lt whole).1 before
      rw [Instant.seconds_ofSeconds] at before
      omega
  omega

/-- Where the clock shows only what it will show later than `t'`, the instants that are left are the
same for `t` and `t'`. -/
theorem firstInstant?_eq (hz : z.IsRegular) (hle : t ≤ t') (kept : z.KeepsOffset t t')
    (ahead : z.wallClock t' < w) : z.firstInstant? w t = z.firstInstant? w t' := by
  apply List.find?_congr
  intro x hx
  obtain ⟨whole, _, shown⟩ := (mem_instants_iff hz).1 hx
  have ahead : (z.wallClock t').seconds < (z.wallClock x).seconds := shown ▸ ahead
  rw [decide_eq_decide]
  constructor
  · intro later
    have laterSeconds := (Instant.lt_iff_seconds_lt whole).1 later
    by_cases before : x.seconds ≤ t'.seconds
    · have same := offsetAt_eq_of_between kept (Int.le_of_lt laterSeconds) before
      rw [seconds_wallClock_eq, seconds_wallClock_eq, same] at ahead
      omega
    · exact (Instant.lt_iff_seconds_lt whole).2 (Int.not_le.1 before)
  · exact Int.lt_of_le_of_lt hle

end Zone

namespace Rule

variable {r : Rule} {z : Zone} {t t' x : Instant} {stop : Option WallClock} {lastYear : Int}
  {w v start : WallClock}

/-! ## One time to set out from -/

/-- Two times that a rule cannot tell apart: they are of the same minute, or the same second if the
rule has seconds. -/
def SameUnit (r : Rule) (w v : WallClock) : Prop :=
  if r.hasSeconds then w = v else w.startOfMinute = v.startOfMinute

instance (r : Rule) (w v : WallClock) : Decidable (r.SameUnit w v) :=
  inferInstanceAs (Decidable (if r.hasSeconds then w = v else w.startOfMinute = v.startOfMinute))

theorem SameUnit.startAfter?_eq (h : r.SameUnit w v) : r.startAfter? w = r.startAfter? v := by
  unfold startAfter?
  unfold SameUnit at h
  by_cases seconds : r.hasSeconds = true
  · rw [if_pos seconds] at h
    rw [h]
  · rw [if_neg seconds] at h
    rw [if_neg seconds, if_neg seconds, h]

/-- A time that meets the rule does not lie between two times that the rule cannot tell apart. -/
theorem SameUnit.le_of_le {u : WallClock} (h : r.SameUnit w v) (met : r.admits u = true)
    (hle : u ≤ v) : u ≤ w := by
  have whole := unit_dvd_of_admits met
  unfold SameUnit at h
  unfold unit at whole
  by_cases seconds : r.hasSeconds = true
  · rw [if_pos seconds] at h
    rwa [h]
  · rw [if_neg seconds] at h whole
    have same : w.seconds / 60 * 60 = v.seconds / 60 * 60 := congrArg WallClock.seconds h
    have hle : u.seconds ≤ v.seconds := hle
    show u.seconds ≤ w.seconds
    omega

/-- What a search finds depends only on the instants that are left for the times from its start
on. -/
theorem search_congr (same : ∀ v, w ≤ v → z.firstInstant? v t = z.firstInstant? v t') :
    r.search z t stop lastYear w = r.search z t' stop lastYear w := by
  fun_induction search r z t stop lastYear w with
  | case1 w outside => rw [search_eq, if_pos outside]
  | case2 w inside next carried within ih =>
    have forward : w ≤ next := Int.le_of_lt (lt_of_carry? carried)
    rw [ih fun v hle => same v (Int.le_trans forward hle), search_eq r z t' stop lastYear w,
      if_neg inside, carried]
    exact (if_pos within).symm
  | case3 w inside next carried passed =>
    rw [search_eq, if_neg inside, carried]
    exact (if_neg passed).symm
  | case4 w inside carried u found =>
    rw [search_eq, if_neg inside, carried, ← same w (Int.le_refl _), found]
  | case5 w inside carried gone next within ih =>
    have forward := le_unit r w
    rw [ih fun v hle => same v (Int.le_trans forward hle), search_eq r z t' stop lastYear w,
      if_neg inside, carried, ← same w (Int.le_refl _), gone]
    exact (if_pos within).symm
  | case6 w inside carried gone next passed =>
    rw [search_eq, if_neg inside, carried, ← same w (Int.le_refl _), gone]
    exact (if_neg passed).symm

/-! ## The search in the repeated hour -/

theorem IsFirst.unique {P : Instant → Prop} {a b : Option Instant} (h : IsFirst P a)
    (h' : IsFirst P b) : a = b := by
  match a, b with
  | none, none => rfl
  | none, some u => exact absurd h'.1 (h u)
  | some t, none => exact absurd h.1 (h' t)
  | some t, some u => exact congrArg some (Instant.le_antisymm (h.2 u h'.1) (h'.2 t h.1))

section

variable (hle : t ≤ t') (kept : z.KeepsOffset t t')
  (same : r.SameUnit (z.wallClock t) (z.wallClock t'))
include hle kept same

/-- After two instants that the rule cannot tell apart the same instants come back. -/
theorem comesBack_iff : r.ComesBack z t x ↔ r.ComesBack z t' x := by
  have seconds := Instant.seconds_le_of_le hle
  have offset := Zone.offsetAt_eq_of_between kept (Int.le_refl _) seconds
  constructor
  · intro back
    have beyond : t'.seconds < x.seconds := by
      apply Int.not_le.1
      intro before
      have laterSeconds := back.afterSeconds
      have behind : (z.wallClock x).seconds ≤ (z.wallClock t).seconds := back.behind
      have between := Zone.offsetAt_eq_of_between kept (Int.le_of_lt laterSeconds) before
      rw [Zone.seconds_wallClock_eq, Zone.seconds_wallClock_eq, between, offset] at behind
      omega
    refine ⟨back.whole, back.inRange, (Instant.lt_iff_seconds_lt back.whole).2 beyond, ?_, back.met⟩
    refine Int.le_trans back.behind ?_
    rw [Zone.seconds_wallClock_eq, Zone.seconds_wallClock_eq, offset]
    omega
  · intro back
    exact ⟨back.whole, back.inRange, Int.lt_of_le_of_lt hle back.later,
      same.le_of_le back.met back.behind, back.met⟩

theorem searchRepeated_eq_of_sameUnit (hr : r.IsWellFormed) (hz : z.IsSpaced) (ht : t.InRange)
    (ht' : t'.InRange) : r.searchRepeated z t = r.searchRepeated z t' := by
  have first := isFirst_searchRepeated hr hz ht
  have first' := isFirst_searchRepeated hr hz ht'
  have alike : r.ComesBack z t = r.ComesBack z t' :=
    funext fun x => propext (comesBack_iff hle kept same)
  rw [← alike] at first'
  exact first.unique first'

/-! ## Both searches together -/

/-- **Precision below the unit of a rule plays no part.** From two instants of one minute, or of one
second if the rule has seconds, with no change of the offset in between, the next occurrence is the
same, or there is none from either. -/
theorem nextAfter?_eq_of_sameUnit (hr : r.IsConstructible) (hz : z.IsSpaced) (ht : t.InRange)
    (ht' : t'.InRange) : r.nextAfter? ⟨t, z⟩ = r.nextAfter? ⟨t', z⟩ := by
  have repeated := searchRepeated_eq_of_sameUnit hle kept same hr.isWellFormed hz ht ht'
  have instants : r.nextInstant? z t = r.nextInstant? z t' := by
    unfold nextInstant?
    rw [same.startAfter?_eq, repeated]
    cases began : r.startAfter? (z.wallClock t') with
    | none => rfl
    | some start =>
      have started := (startAfter?_eq_some began).1
      have forward : r.searchFrom z t none start = r.searchFrom z t' none start :=
        search_congr fun v reached =>
          Zone.firstInstant?_eq hz.isRegular hle kept (Int.lt_of_lt_of_le started reached)
      simp only [Option.bind_eq_bind, Option.bind_some, forward]
  exact congrArg (Option.map _) instants

end

/-- Within one minute the clock comes to times that it will repeat; from both sides of that point
half past eleven is next, for the first time. -/
theorem nextAfter?_halfHours_sameUnit :
    ¬Zone.lastHalfHour.InFirstPass ⟨253402207150, 93599, 91800⟩ ⟨253402205346000000005⟩ ∧
      Zone.lastHalfHour.InFirstPass ⟨253402207150, 93599, 91800⟩ ⟨253402205391999999999⟩ ∧
      halfHours.nextAfter? ⟨⟨253402205346000000005⟩, .lastHalfHour⟩ =
        some ⟨.ofSeconds 253402205401, .lastHalfHour⟩ ∧
      halfHours.nextAfter? ⟨⟨253402205391999999999⟩, .lastHalfHour⟩ =
        some ⟨.ofSeconds 253402205401, .lastHalfHour⟩ := by
  have same : halfHours.nextAfter? ⟨⟨253402205346000000005⟩, .lastHalfHour⟩ =
      halfHours.nextAfter? ⟨⟨253402205391999999999⟩, .lastHalfHour⟩ :=
    nextAfter?_eq_of_sameUnit (by decide) (by decide) (by decide) isConstructible_halfHours
      Zone.isSpaced_lastHalfHour (by decide) (by decide)
  have next : halfHours.nextAfter? ⟨⟨253402205391999999999⟩, .lastHalfHour⟩ =
      some ⟨.ofSeconds 253402205401, .lastHalfHour⟩ := by decide +kernel
  exact ⟨by decide, by decide, same.trans next, next⟩

end Rule

end Recurrence
