import Recurrence.Proofs.Occurrence.Next
import Recurrence.Proofs.Rule.Feasible

/-!
# When there is no next occurrence

In a zone with one offset the search answers whenever there is an answer. Three of its shortcuts
need an argument: the test for rules that can never be met leaves out no rule that is met somewhere
(`Rule.isFeasible_of_admitsDate`), giving up after 400 years is right because a time that meets a
rule does so one cycle of the calendar earlier (`Rule.admits_cycleBefore`), and the calendar does
not end before the range of instants does.
-/

namespace Recurrence

/-! ## A zone with one offset -/

namespace Zone

variable {offset : Int} {t : Instant} {w : WallClock}

theorem isRegular_fixed (h : -largestOffset ≤ offset ∧ offset ≤ largestOffset) :
    (fixed offset).IsRegular where
  apart := List.Pairwise.nil
  initial_bounds := h
  offset_bounds _ ht := nomatch ht

theorem exists_wallClock_fixed (offset : Int) (w : WallClock) :
    ∃ t : Instant, t.IsWhole ∧ (fixed offset).wallClock t = w := by
  refine ⟨.ofSeconds (w.seconds - offset), Instant.isWhole_ofSeconds _, congrArg WallClock.mk ?_⟩
  rw [Instant.seconds_ofSeconds]
  exact Int.sub_add_cancel _ _

theorem leavesHour_fixed (w : WallClock) : (fixed offset).leavesHour w = false := by
  unfold leavesHour
  split
  · rename_i t found
    obtain ⟨_, _, seconds⟩ := Instant.atSecond?_eq_some_iff.1 found
    have shown : (fixed offset).wallClock t = w := by
      have seconds : t.seconds = w.seconds - offset := seconds
      apply congrArg WallClock.mk
      show t.seconds + offset = w.seconds
      omega
    rw [shown]
    exact decide_eq_false (not_not_intro rfl)
  · rfl

theorem skipsHour_fixed (w : WallClock) : (fixed offset).skipsHour w = false := by
  rw [skipsHour, leavesHour_fixed]
  rfl

end Zone

namespace Rule

variable {r : Rule} {w v start : WallClock}

/-! ## One cycle of the calendar earlier -/

/-- The same time of the wall clock, one cycle of the calendar earlier. -/
def cycleBefore (w : WallClock) : WallClock := ⟨w.seconds - 86400 * cycleDays⟩

theorem secondOfDay_cycleBefore (w : WallClock) :
    (cycleBefore w).secondOfDay = w.secondOfDay := by
  unfold cycleBefore WallClock.secondOfDay cycleDays
  simp only
  omega

theorem date_cycleBefore (w : WallClock) :
    (cycleBefore w).date = ⟨w.date.year - 400, w.date.month, w.date.day⟩ := by
  have days : w.dayNumber = (cycleBefore w).dayNumber + cycleDays := by
    unfold cycleBefore WallClock.dayNumber cycleDays
    simp only
    omega
  rw [WallClock.date, WallClock.date, days, Date.ofDayNumber_add_cycle, Int.add_sub_cancel]

/-- A time meets a rule when it does so one cycle of the calendar earlier. -/
theorem admits_cycleBefore (first : Date.firstYear ≤ w.date.year - 400)
    (last : w.date.year ≤ Date.lastYear) : r.admits (cycleBefore w) = r.admits w := by
  unfold admits admitsDate WallClock.hour WallClock.minute WallClock.second
  rw [secondOfDay_cycleBefore, date_cycleBefore, daySet_sub_cycle first last]

theorem year_cycleBefore (w : WallClock) : (cycleBefore w).date.year = w.date.year - 400 := by
  rw [date_cycleBefore]

theorem cycleBefore_le (w : WallClock) : cycleBefore w ≤ w :=
  Int.sub_le_self _ (by decide)

/-- If a rule is met from some time on, it is met within a cycle of the calendar. -/
theorem exists_within_cycle (hfirst : Date.firstYear ≤ start.date.year) (n : Nat)
    (hyear : v.date.year ≤ start.date.year + cycleYears * (n + 1))
    (hlast : v.date.year ≤ Date.lastYear) (met : r.admits v = true) (hle : start ≤ v) :
    ∃ u, r.admits u = true ∧ start ≤ u ∧ u ≤ v ∧
      u.date.year ≤ start.date.year + cycleYears := by
  induction n generalizing v with
  | zero => exact ⟨v, met, hle, Int.le_refl _, by omega⟩
  | succ n ih =>
    by_cases near : v.date.year ≤ start.date.year + cycleYears
    · exact ⟨v, met, hle, Int.le_refl _, near⟩
    · have earlier := year_cycleBefore v
      unfold cycleYears at hyear near
      have later : start ≤ cycleBefore v := by
        by_cases before : (cycleBefore v).seconds ≤ start.seconds
        · have := year_mono (w := cycleBefore v) (v := start) before
          omega
        · exact Int.le_of_lt (Int.not_le.1 before)
      obtain ⟨u, metU, startU, le, close⟩ := ih (v := cycleBefore v)
        (by unfold cycleYears; omega) (by omega)
        (by rwa [admits_cycleBefore (by omega) hlast]) later
      exact ⟨u, metU, startU, Int.le_trans le (cycleBefore_le v), close⟩

/-! ## The end of the search -/

theorem firstYear_le (w : WallClock) (h : -377705116800 ≤ w.seconds) :
    Date.firstYear ≤ w.date.year := by
  have first : (⟨-377705116800⟩ : WallClock).date.year = Date.firstYear := by decide +kernel
  rw [← first]
  exact year_mono h

theorem le_lastYear (h : w ≤ .last) : w.date.year ≤ Date.lastYear := by
  have last : WallClock.last.date.year = Date.lastYear := by decide +kernel
  rw [← last]
  exact year_mono h

theorem earlier_eq_none {a b : Option Instant} (h : earlier a b = none) : a = none ∧ b = none := by
  match a, b with
  | none, none => exact ⟨rfl, rfl⟩
  | none, some u => cases h
  | some t, some u =>
    rw [earlier] at h
    split at h
    · cases h
    · cases h
  | some t, none => cases h

variable {offset : Int} {after x : Instant}

/-- Where a search in a zone with one offset finds nothing, the rule is not met any more within a
cycle of the calendar. -/
theorem not_admits_of_searchFrom_eq_none (hr : r.IsWellFormed)
    (hoffset : -Zone.largestOffset ≤ offset ∧ offset ≤ Zone.largestOffset)
    (h : r.searchFrom (.fixed offset) after none start = none) (whole : x.IsWhole)
    (inRange : x.InRange) (later : after < x) (reached : start ≤ (Zone.fixed offset).wallClock x)
    (close : ((Zone.fixed offset).wallClock x).date.year ≤ start.date.year + cycleYears) :
    r.admits ((Zone.fixed offset).wallClock x) = false := by
  have hz := Zone.isRegular_fixed hoffset
  have passable := searchFrom_eq_none hr h reached (wallClock_le_last hz inRange)
    (fun _ none => nomatch none) close
  cases met : r.admits ((Zone.fixed offset).wallClock x) with
  | false => rfl
  | true =>
    have givenUp := (passable.givesUpFrom hz whole inRange later met).givesUp
    exact absurd givenUp (not_givesUp Zone.skipsHour_fixed)

/-- Where there is no next occurrence, the rule is not met any more. -/
theorem not_admits_of_nextInstant?_eq_none (hr : r.IsWellFormed)
    (hoffset : -Zone.largestOffset ≤ offset ∧ offset ≤ Zone.largestOffset) (ha : after.InRange)
    (h : r.nextInstant? (.fixed offset) after = none) (whole : x.IsWhole) (inRange : x.InRange)
    (later : after < x) : r.admits ((Zone.fixed offset).wallClock x) = false := by
  have hz := Zone.isRegular_fixed hoffset
  have afterSeconds := (Instant.lt_iff_seconds_lt whole).1 later
  have hlast := wallClock_le_last hz inRange
  have ahead : (Zone.fixed offset).wallClock after < (Zone.fixed offset).wallClock x :=
    Int.add_lt_add_right afterSeconds offset
  by_cases met : r.admits ((Zone.fixed offset).wallClock x) = true
  · have feasible := isFeasible_of_admitsDate (WallClock.isProper_date _) (admitsDate_of_admits met)
    rw [nextInstant?, if_pos feasible] at h
    cases began : r.startAfter? ((Zone.fixed offset).wallClock after) with
    | none => exact absurd hlast (Int.not_le.2 (startAfter?_eq_none began met ahead))
    | some start =>
      obtain ⟨started, _, next⟩ := startAfter?_eq_some began
      rw [began] at h
      have nothing := (earlier_eq_none h).1
      have hstart : -377705116800 ≤ start.seconds := by
        have started : after.seconds + offset < start.seconds := started
        have lower := ha.1
        unfold Zone.largestOffset at hoffset
        unfold Instant.firstSecond at lower
        omega
      have first := firstYear_le start hstart
      have last := le_lastYear hlast
      obtain ⟨u, metU, startU, le, close⟩ := exists_within_cycle first 50
        (by unfold cycleYears Date.firstYear Date.lastYear at *; omega) last met (next _ met ahead)
      obtain ⟨y, wholeY, shown⟩ := Zone.exists_wallClock_fixed offset u
      rw [← shown] at metU startU le close
      have startedY : after.seconds + offset < y.seconds + offset :=
        Int.lt_of_lt_of_le started startU
      have beforeX : y.seconds + offset ≤ x.seconds + offset := le
      have inRangeY := inRange_of_between ha inRange (x := y) (by omega) (by omega)
      have laterY := (Instant.lt_iff_seconds_lt wholeY).2 (Int.lt_of_add_lt_add_right startedY)
      rw [not_admits_of_searchFrom_eq_none hr hoffset nothing wholeY inRangeY laterY startU close]
        at metU
      cases metU
  · exact Bool.eq_false_iff.2 met

/-- **None means never**: in a zone with one offset there is no next occurrence exactly when no
whole second up to the end of the range of instants meets the rule. -/
theorem nextAfter?_eq_none_iff (hr : r.IsConstructible)
    (hoffset : -Zone.largestOffset ≤ offset ∧ offset ≤ Zone.largestOffset) (ha : after.InRange) :
    r.nextAfter? ⟨after, .fixed offset⟩ = none ↔
      ∀ x : Instant, x.IsWhole → after < x → x ≤ .ofSeconds Instant.lastSecond →
        r.isMetBy ⟨x, .fixed offset⟩ = false := by
  constructor
  · intro none x whole later before
    have inRange : x.InRange := by
      have upper := (Instant.le_iff_seconds_le whole (Instant.isWhole_ofSeconds _)).1 before
      rw [Instant.seconds_ofSeconds] at upper
      exact ⟨Int.le_trans ha.1 (Instant.seconds_le_of_lt later), upper⟩
    exact not_admits_of_nextInstant?_eq_none hr.isWellFormed hoffset ha
      (Option.map_eq_none_iff.1 none) whole inRange later
  · intro never
    cases found : r.nextInstant? (.fixed offset) after with
    | none => exact Option.map_eq_none_iff.2 found
    | some t =>
      obtain ⟨_, hit⟩ :=
        exists_hit_of_nextInstant? hr.isWellFormed (Zone.isRegular_fixed hoffset) found
      have before := (bounds_of_nextInstant? found).2
      have missed : r.admits ((Zone.fixed offset).wallClock t) = false :=
        never t hit.whole hit.later before
      rw [hit.met] at missed
      cases missed

/-- The thirtieth of February, at midnight. -/
def thirtiethOfFebruary : Rule := ⟨0x2, 0x20000000, 0, 0, 0, 0x1, 0x1, 0⟩

theorem isConstructible_thirtiethOfFebruary : thirtiethOfFebruary.IsConstructible :=
  .inl ⟨[.values .minute [0], .values .hour [0], .values .day [30], .values .month [2]], rfl⟩

/-- The thirtieth of February never comes, in the easternmost zone either. -/
theorem nextAfter?_thirtiethOfFebruary :
    thirtiethOfFebruary.nextAfter? ⟨.ofSeconds 0, .fixed 93599⟩ = none ∧
      ∀ x : Instant, x.IsWhole → Instant.ofSeconds 0 < x → x ≤ .ofSeconds Instant.lastSecond →
        thirtiethOfFebruary.isMetBy ⟨x, .fixed 93599⟩ = false := by
  have never : thirtiethOfFebruary.nextAfter? ⟨.ofSeconds 0, .fixed 93599⟩ = none := by decide
  exact ⟨never, (nextAfter?_eq_none_iff isConstructible_thirtiethOfFebruary (by decide)
    (by decide)).1 never⟩

end Rule

end Recurrence
