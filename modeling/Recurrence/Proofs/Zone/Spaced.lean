import Recurrence.Proofs.Zone

/-!
# Zones with time between their changes

Where at most one change of the offset falls into any seven days, the changes are days apart on the
wall as well, because offsets are bounded (`Zone.IsSpaced.pairwise_changes`). Such a zone is regular
(`Zone.IsSpaced.isRegular`), and it skips no hour within a day of a time that it repeats
(`Zone.IsSpaced.skipsHour_eq_false_near`).
-/

namespace Recurrence

namespace Zone

/-- Seven days, in seconds. -/
def week : Int := 604800

/-- A zone whose changes are at least seven days apart, and whose offsets are within their bounds. A
transition that keeps the offset counts as a change: it must be as far from the others, though the
clock does not show it. -/
structure IsSpaced (z : Zone) : Prop where
  /-- Each transition comes seven days after an earlier one or later. -/
  apart : z.transitions.Pairwise (·.start + week ≤ ·.start)
  initial_bounds : -largestOffset ≤ z.initial ∧ z.initial ≤ largestOffset
  offset_bounds : ∀ t ∈ z.transitions, -largestOffset ≤ t.offset ∧ t.offset ≤ largestOffset

/-! ## Changes of a list -/

section Changes

variable {offset : Int} {ts : List Transition}

theorem map_start_changesFrom (offset : Int) (ts : List Transition) :
    (changesFrom offset ts).map Change.start = ts.map Transition.start := by
  induction ts generalizing offset with
  | nil => rfl
  | cons t ts ih =>
    rw [changesFrom, List.map_cons, List.map_cons, ih]

theorem bounds_of_mem_changesFrom {bound : Int} (first : -bound ≤ offset ∧ offset ≤ bound)
    (h : ∀ t ∈ ts, -bound ≤ t.offset ∧ t.offset ≤ bound) :
    ∀ c ∈ changesFrom offset ts, -bound ≤ min c.before c.after ∧ max c.before c.after ≤ bound := by
  induction ts generalizing offset with
  | nil =>
    intro c hc
    cases hc
  | cons t ts ih =>
    have here := h t List.mem_cons_self
    intro c hc
    cases List.mem_cons.1 hc with
    | inl same =>
      rw [same]
      simp only
      omega
    | inr hc => exact ih here (fun u hu => h u (List.mem_cons_of_mem t hu)) c hc

end Changes

namespace IsSpaced

variable {z : Zone} (hz : z.IsSpaced)
include hz

/-- On the wall four days remain between two changes, since no offset is much longer than a day. -/
theorem pairwise_changes : z.changes.Pairwise fun c d => c.closes + 4 * 86400 ≤ d.opens := by
  have bounds := bounds_of_mem_changesFrom hz.initial_bounds hz.offset_bounds
  have starts : z.changes.Pairwise fun c d => c.start + week ≤ d.start := by
    have apart : (z.transitions.map Transition.start).Pairwise (· + week ≤ ·) :=
      List.pairwise_map.2 hz.apart
    rw [← map_start_changesFrom z.initial] at apart
    exact List.pairwise_map.1 apart
  apply starts.imp_of_mem
  intro c d hc hd apart
  have boundsC := bounds c hc
  have boundsD := bounds d hd
  unfold Change.closes Change.opens
  unfold week at apart
  unfold largestOffset at boundsC boundsD
  omega

theorem isRegular : z.IsRegular where
  apart := hz.pairwise_changes.imp fun h => by omega
  initial_bounds := hz.initial_bounds
  offset_bounds := hz.offset_bounds

/-- Within a day of a time that the clock shows twice no hour is skipped. -/
theorem skipsHour_eq_false_near {c : Change} {s : Int} {w : WallClock} (hc : c ∈ z.changes)
    (back : c.after ≤ c.before) (hopens : c.opens ≤ s) (hcloses : s < c.closes)
    (near : s - 86400 ≤ w.startOfHour.seconds ∧ w.startOfHour.seconds ≤ s + 86400) :
    z.skipsHour w = false := by
  rw [Bool.eq_false_iff]
  intro skips
  rw [skipsHour, Bool.and_eq_true] at skips
  obtain ⟨d, hd, forward, hopens', hcloses'⟩ := exists_change_of_leavesHour hz.isRegular skips.1
  rcases eq_or_of_pairwise hz.pairwise_changes hc hd with rfl | before | behind
  · omega
  · omega
  · omega

end IsSpaced

end Zone

end Recurrence
