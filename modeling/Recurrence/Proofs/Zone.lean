import Recurrence.Zone

/-!
# The clock of a zone

A zone is regular when each change of its offset is over, on the wall, before the next one begins.
Then the two views of a zone agree: the clock shows a time at exactly the instants that the time's
reading names (`Zone.wallClock_eq_iff`).

Two facts say how the clock moves. It falls behind an earlier view of itself only by passing a
change that sets it back (`Zone.exists_change_of_clock_le`), and never twice
(`Zone.clock_lt_clock`). And it passes through every time that it shows at all
(`Zone.exists_wallClock_eq`).
-/

namespace Recurrence

theorem eq_or_of_pairwise {α : Type} {R : α → α → Prop} {l : List α} {a b : α} (h : l.Pairwise R)
    (ha : a ∈ l) (hb : b ∈ l) : a = b ∨ R a b ∨ R b a := by
  obtain ⟨i, hi, rfl⟩ := List.getElem_of_mem ha
  obtain ⟨j, hj, rfl⟩ := List.getElem_of_mem hb
  have ordered := List.pairwise_iff_getElem.1 h
  rcases Nat.lt_trichotomy i j with before | rfl | behind
  · exact .inr (.inl (ordered i j hi hj before))
  · exact .inl rfl
  · exact .inr (.inr (ordered j i hj hi behind))

/-! ## Instants -/

namespace Instant

/-- An instant without parts of a second. -/
def IsWhole (t : Instant) : Prop := t = ofSeconds t.seconds

/-- An instant within the range of instants, up to parts of its last second. -/
def InRange (t : Instant) : Prop := firstSecond ≤ t.seconds ∧ t.seconds ≤ lastSecond

instance (t : Instant) : Decidable t.IsWhole :=
  inferInstanceAs (Decidable (_ = _))

instance (t : Instant) : Decidable t.InRange :=
  inferInstanceAs (Decidable (_ ∧ _))

@[simp] theorem seconds_ofSeconds (s : Int) : (ofSeconds s).seconds = s := by
  unfold ofSeconds seconds perSecond
  simp only
  omega

theorem isWhole_ofSeconds (s : Int) : (ofSeconds s).IsWhole := by
  rw [IsWhole, seconds_ofSeconds]

theorem seconds_le_of_le {t u : Instant} (h : t ≤ u) : t.seconds ≤ u.seconds := by
  have h : t.nanoseconds ≤ u.nanoseconds := h
  unfold seconds perSecond
  omega

theorem seconds_le_of_lt {t u : Instant} (h : t < u) : t.seconds ≤ u.seconds :=
  seconds_le_of_le (Int.le_of_lt h)

theorem le_antisymm {t u : Instant} (h : t ≤ u) (h' : u ≤ t) : t = u :=
  congrArg mk (Int.le_antisymm h h')

theorem lt_iff_seconds_lt {t u : Instant} (hu : u.IsWhole) : t < u ↔ t.seconds < u.seconds := by
  have whole : u.nanoseconds = u.seconds * perSecond := congrArg nanoseconds hu
  show t.nanoseconds < u.nanoseconds ↔ _
  unfold seconds perSecond at *
  omega

theorem le_iff_seconds_le {t u : Instant} (ht : t.IsWhole) (hu : u.IsWhole) :
    t ≤ u ↔ t.seconds ≤ u.seconds := by
  have whole : t.nanoseconds = t.seconds * perSecond := congrArg nanoseconds ht
  have whole' : u.nanoseconds = u.seconds * perSecond := congrArg nanoseconds hu
  show t.nanoseconds ≤ u.nanoseconds ↔ _
  unfold seconds perSecond at *
  omega

theorem atSecond?_eq_some_iff {s : Int} {t : Instant} :
    atSecond? s = some t ↔ t.IsWhole ∧ t.InRange ∧ t.seconds = s := by
  unfold atSecond?
  split
  · rename_i inside
    constructor
    · rintro ⟨⟩
      exact ⟨isWhole_ofSeconds s, by rwa [InRange, seconds_ofSeconds], seconds_ofSeconds s⟩
    · rintro ⟨whole, _, rfl⟩
      rw [← whole]
  · rename_i outside
    constructor
    · rintro ⟨⟩
    · rintro ⟨_, inside, rfl⟩
      exact absurd inside outside

end Instant

/-! ## Readings -/

namespace Reading

theorem mem_offsets_single {offset a : Int} : offset ∈ (single a).offsets ↔ offset = a :=
  List.mem_singleton

theorem not_mem_offsets_gap {offset a b : Int} : offset ∉ (gap a b).offsets :=
  List.not_mem_nil

theorem mem_offsets_fold {offset a b : Int} :
    offset ∈ (fold a b).offsets ↔ offset = a ∨ offset = b := by
  rw [offsets, List.mem_cons, List.mem_singleton]

end Reading

/-! ## Changes of the offset -/

/-- A change of the offset at a second, with the offset on both sides. -/
structure Change where
  start : Int
  before : Int
  after : Int
deriving DecidableEq, Repr

namespace Change

/-- The first time of the wall clock that a change skips, repeats or, where it does neither,
begins with. -/
def opens (c : Change) : Int := c.start + min c.before c.after

/-- The time of the wall clock from which a change is over. -/
def closes (c : Change) : Int := c.start + max c.before c.after

/-- How the times from `opens` to `closes` read. -/
def reading (c : Change) : Reading :=
  if c.before < c.after then .gap c.before c.after else .fold c.before c.after

theorem mem_offsets_reading {c : Change} {offset : Int} :
    offset ∈ c.reading.offsets ↔
      c.after ≤ c.before ∧ (offset = c.before ∨ offset = c.after) := by
  unfold reading
  split
  · rename_i forward
    exact ⟨fun h => absurd h Reading.not_mem_offsets_gap,
      fun h => absurd forward (Int.not_lt.2 h.1)⟩
  · rw [Reading.mem_offsets_fold]
    omega

theorem bounds (c : Change) :
    c.opens ≤ c.start + c.before ∧ c.opens ≤ c.start + c.after ∧
      c.start + c.before ≤ c.closes ∧ c.start + c.after ≤ c.closes := by
  unfold opens closes
  omega

end Change

namespace Zone

/-- The changes of a list of transitions, from an offset on. -/
def changesFrom (offset : Int) : List Transition → List Change
  | [] => []
  | t :: rest => ⟨t.start, offset, t.offset⟩ :: changesFrom t.offset rest

/-- The changes of a zone. -/
def changes (z : Zone) : List Change := changesFrom z.initial z.transitions

/-- The largest offset from universal time, in seconds to either side. -/
def largestOffset : Int := 93599

/-- A zone whose changes do not overlap on the wall, and whose offsets are within their bounds. A
transition that keeps the offset is a change as well, of no length: it must not lie strictly inside
the stretch of another one, though the clock does not show it. -/
structure IsRegular (z : Zone) : Prop where
  /-- Each change is over on the wall before a later one begins. -/
  apart : z.changes.Pairwise (·.closes ≤ ·.opens)
  initial_bounds : -largestOffset ≤ z.initial ∧ z.initial ≤ largestOffset
  offset_bounds : ∀ t ∈ z.transitions, -largestOffset ≤ t.offset ∧ t.offset ≤ largestOffset

/-! ## Transition lists

Here `s`, `u` and `v` are seconds of physical time and `w` is one of the wall clock. -/

section TransitionLists

variable {offset s u v w : Int} {ts : List Transition}

/-- The second that the clock shows, after the changes of a list. -/
def clockFrom (offset : Int) (ts : List Transition) (s : Int) : Int := s + offsetFrom offset ts s

theorem clockFrom_cons_of_lt {t : Transition} (h : s < t.start) :
    clockFrom offset (t :: ts) s = s + offset := by
  rw [clockFrom, offsetFrom, if_pos h]

theorem clockFrom_cons_of_le {t : Transition} (h : t.start ≤ s) :
    clockFrom offset (t :: ts) s = clockFrom t.offset ts s := by
  rw [clockFrom, offsetFrom, if_neg (Int.not_lt.2 h), clockFrom]

theorem le_clockFrom {low : Int} (hs : low ≤ s + offset)
    (h : ∀ c ∈ changesFrom offset ts, low ≤ c.opens) : low ≤ clockFrom offset ts s := by
  induction ts generalizing offset with
  | nil => exact hs
  | cons t ts ih =>
    have head := h _ List.mem_cons_self
    have sides := (Change.mk t.start offset t.offset).bounds
    by_cases before : s < t.start
    · rwa [clockFrom_cons_of_lt before]
    · rw [clockFrom_cons_of_le (Int.not_lt.1 before)]
      simp only at sides
      exact ih (by omega) fun c hc => h c (List.mem_cons_of_mem _ hc)

theorem le_start_of_le_opens {low : Int}
    (apart : (changesFrom offset ts).Pairwise (·.closes ≤ ·.opens))
    (h : ∀ c ∈ changesFrom offset ts, low ≤ c.opens) :
    ∀ c ∈ changesFrom offset ts, low ≤ c.start + offset := by
  induction ts generalizing offset low with
  | nil => intro c hc; cases hc
  | cons t ts ih =>
    obtain ⟨head, tail⟩ := List.pairwise_cons.1 apart
    have first := h _ List.mem_cons_self
    have sides := (Change.mk t.start offset t.offset).bounds
    simp only at sides
    intro c hc
    rcases List.mem_cons.1 hc with rfl | hc
    · simp only
      omega
    · have later : t.start + t.offset ≤ c.start + t.offset :=
        ih tail (fun d hd => Int.le_trans sides.2.2.2 (head d hd)) c hc
      omega

theorem start_le_start {t : Transition}
    (apart : (changesFrom offset (t :: ts)).Pairwise (·.closes ≤ ·.opens)) :
    ∀ c ∈ changesFrom t.offset ts, t.start ≤ c.start := by
  obtain ⟨head, tail⟩ := List.pairwise_cons.1 apart
  have sides := (Change.mk t.start offset t.offset).bounds
  intro c hc
  have later : t.start + t.offset ≤ c.start + t.offset :=
    le_start_of_le_opens tail (fun d hd => Int.le_trans sides.2.2.2 (head d hd)) c hc
  omega

theorem offsetFrom_of_lt (h : ∀ c ∈ changesFrom offset ts, s < c.start) :
    offsetFrom offset ts s = offset := by
  cases ts with
  | nil => rfl
  | cons t ts => rw [offsetFrom, if_pos (h _ List.mem_cons_self)]

/-- Until a change starts, the clock stays below the time that it then shows with the old offset. -/
theorem clockFrom_lt_of_lt_start
    (apart : (changesFrom offset ts).Pairwise (·.closes ≤ ·.opens)) {c : Change}
    (hc : c ∈ changesFrom offset ts) (h : v < c.start) :
    clockFrom offset ts v < c.start + c.before := by
  induction ts generalizing offset with
  | nil => cases hc
  | cons t ts ih =>
    obtain ⟨head, tail⟩ := List.pairwise_cons.1 apart
    rcases List.mem_cons.1 hc with rfl | hc
    · rw [clockFrom_cons_of_lt h]
      exact Int.add_lt_add_right h offset
    · by_cases before : v < t.start
      · rw [clockFrom_cons_of_lt before]
        have sides := (Change.mk t.start offset t.offset).bounds
        have sides' := c.bounds
        have := head c hc
        simp only at sides
        omega
      · rw [clockFrom_cons_of_le (Int.not_lt.1 before)]
        exact ih tail hc

/-- Once a change has started, the clock stays above the time that it then shows with the new
offset. -/
theorem le_clockFrom_of_start_le
    (apart : (changesFrom offset ts).Pairwise (·.closes ≤ ·.opens)) {c : Change}
    (hc : c ∈ changesFrom offset ts) (h : c.start ≤ v) :
    c.start + c.after ≤ clockFrom offset ts v := by
  induction ts generalizing offset with
  | nil => cases hc
  | cons t ts ih =>
    have order := start_le_start apart
    obtain ⟨head, tail⟩ := List.pairwise_cons.1 apart
    rcases List.mem_cons.1 hc with rfl | hc
    · rw [clockFrom_cons_of_le h]
      have sides := (Change.mk t.start offset t.offset).bounds
      simp only at h ⊢
      exact le_clockFrom (by omega) fun d hd => Int.le_trans sides.2.2.2 (head d hd)
    · rw [clockFrom_cons_of_le (Int.le_trans (order c hc) h)]
      exact ih tail hc

theorem clockFrom_eq_iff_of_lt_opens
    (apart : (changesFrom offset ts).Pairwise (·.closes ≤ ·.opens))
    (h : ∀ c ∈ changesFrom offset ts, w < c.opens) :
    clockFrom offset ts s = w ↔ s + offset = w := by
  cases ts with
  | nil => rfl
  | cons t ts =>
    have first := h _ List.mem_cons_self
    have sides := (Change.mk t.start offset t.offset).bounds
    by_cases before : s < t.start
    · rw [clockFrom_cons_of_lt before]
    · have started : t.start ≤ s := Int.not_lt.1 before
      have above := le_clockFrom_of_start_le apart List.mem_cons_self started
      simp only at sides above
      omega

theorem clockFrom_eq_iff (apart : (changesFrom offset ts).Pairwise (·.closes ≤ ·.opens)) :
    clockFrom offset ts s = w ↔ w - s ∈ (readingFrom offset ts w).offsets := by
  induction ts generalizing offset with
  | nil =>
    rw [readingFrom, Reading.mem_offsets_single, clockFrom, offsetFrom]
    omega
  | cons t ts ih =>
    obtain ⟨head, tail⟩ := List.pairwise_cons.1 apart
    let c : Change := ⟨t.start, offset, t.offset⟩
    have opens : c.opens = t.start + min offset t.offset := rfl
    have closes : c.closes = t.start + max offset t.offset := rfl
    have head : ∀ d ∈ changesFrom t.offset ts, c.closes ≤ d.opens := head
    have in_window : w - s ∈ c.reading.offsets ↔
      t.offset ≤ offset ∧ (w - s = offset ∨ w - s = t.offset) := Change.mem_offsets_reading
    have reading : readingFrom offset (t :: ts) w = if w < c.opens then .single offset
      else if w < c.closes then c.reading else readingFrom t.offset ts w := rfl
    rw [reading]
    by_cases before : s < t.start
    · rw [clockFrom_cons_of_lt before]
      split
      · rw [Reading.mem_offsets_single]
        omega
      · split
        · rw [in_window]
          omega
        · -- Over on the wall, the change cannot lie ahead: the rest would start before it.
          have ahead : ∀ d ∈ changesFrom t.offset ts, s < d.start := fun d hd =>
            Int.lt_of_lt_of_le before (start_le_start apart d hd)
          rw [← ih tail, clockFrom, offsetFrom_of_lt ahead]
          omega
    · have started : t.start ≤ s := Int.not_lt.1 before
      rw [clockFrom_cons_of_le started]
      split
      · have above : c.opens ≤ clockFrom t.offset ts s := le_clockFrom (by omega) fun d hd =>
          Int.le_trans (by omega) (head d hd)
        rw [Reading.mem_offsets_single]
        omega
      · split
        · rename_i inside
          rw [in_window, clockFrom_eq_iff_of_lt_opens tail fun d hd =>
            Int.lt_of_lt_of_le inside (head d hd)]
          omega
        · exact ih tail

theorem readingFrom_eq (apart : (changesFrom offset ts).Pairwise (·.closes ≤ ·.opens))
    {c : Change} (hc : c ∈ changesFrom offset ts) (hopens : c.opens ≤ w) (hcloses : w < c.closes) :
    readingFrom offset ts w = c.reading := by
  induction ts generalizing offset with
  | nil => cases hc
  | cons t ts ih =>
    obtain ⟨head, tail⟩ := List.pairwise_cons.1 apart
    let d : Change := ⟨t.start, offset, t.offset⟩
    have reading : readingFrom offset (t :: ts) w = if w < d.opens then .single offset
      else if w < d.closes then d.reading else readingFrom t.offset ts w := rfl
    have sides := d.bounds
    rw [reading]
    rcases List.mem_cons.1 hc with rfl | hc
    · rw [if_neg (Int.not_lt.2 hopens), if_pos hcloses]
    · have ended : d.closes ≤ c.opens := head c hc
      rw [if_neg (by omega), if_neg (by omega)]
      exact ih tail hc

/-- Of the two offsets of a repeated time the larger one, and so the earlier instant, comes
first. -/
theorem lt_of_readingFrom_eq_fold {before after : Int}
    (h : readingFrom offset ts w = .fold before after) : after < before := by
  induction ts generalizing offset with
  | nil => cases h
  | cons t ts ih =>
    rw [readingFrom] at h
    split at h
    · cases h
    · split at h
      · split at h
        · cases h
        · cases h
          omega
      · exact ih h

theorem exists_change_of_readingFrom_eq_gap {before after : Int}
    (h : readingFrom offset ts w = .gap before after) :
    ∃ c ∈ changesFrom offset ts, c.before < c.after ∧ c.opens ≤ w ∧ w < c.closes := by
  induction ts generalizing offset with
  | nil => cases h
  | cons t ts ih =>
    rw [readingFrom] at h
    split at h
    · cases h
    · rename_i opened
      split at h
      · rename_i closing
        split at h
        · rename_i forward
          exact ⟨⟨t.start, offset, t.offset⟩, List.mem_cons_self, forward, Int.not_lt.1 opened,
            closing⟩
        · cases h
      · obtain ⟨c, hc, inside⟩ := ih h
        exact ⟨c, List.mem_cons_of_mem _ hc, inside⟩

theorem exists_change_of_clockFrom_le
    (apart : (changesFrom offset ts).Pairwise (·.closes ≤ ·.opens)) (hlt : s < u)
    (hle : clockFrom offset ts u ≤ clockFrom offset ts s) :
    ∃ c ∈ changesFrom offset ts, s < c.start ∧ c.start ≤ u ∧
      offsetFrom offset ts s = c.before ∧ offsetFrom offset ts u = c.after := by
  induction ts generalizing offset with
  | nil =>
    simp only [clockFrom, offsetFrom] at hle
    omega
  | cons t ts ih =>
    obtain ⟨head, tail⟩ := List.pairwise_cons.1 apart
    by_cases later : t.start ≤ s
    · rw [clockFrom_cons_of_le later, clockFrom_cons_of_le (by omega)] at hle
      obtain ⟨c, hc, hs, hu, before, after⟩ := ih tail hle
      refine ⟨c, List.mem_cons_of_mem _ hc, hs, hu, ?_, ?_⟩
      · rwa [offsetFrom, if_neg (Int.not_lt.2 later)]
      · rwa [offsetFrom, if_neg (by omega)]
    · have before : s < t.start := Int.not_le.1 later
      rw [clockFrom_cons_of_lt before] at hle
      by_cases between : t.start ≤ u
      · refine ⟨_, List.mem_cons_self, before, between, ?_, ?_⟩
        · rw [offsetFrom, if_pos before]
        · rw [offsetFrom, if_neg (Int.not_lt.2 between)]
          apply offsetFrom_of_lt
          intro d hd
          by_cases started : d.start ≤ u
          · -- A second change before `u` would leave the clock ahead.
            have above := le_clockFrom_of_start_le apart (List.mem_cons_of_mem _ hd) started
            have ended := head d hd
            have sides := (Change.mk t.start offset t.offset).bounds
            have sides' := d.bounds
            rw [clockFrom_cons_of_le between] at hle above
            simp only at sides
            omega
          · exact Int.not_le.1 started
      · rw [clockFrom_cons_of_lt (Int.not_le.1 between)] at hle
        omega

theorem exists_clockFrom_eq (apart : (changesFrom offset ts).Pairwise (·.closes ≤ ·.opens))
    (hsu : s ≤ u) (hs : clockFrom offset ts s < w) (hu : w ≤ clockFrom offset ts u)
    (no_gap : ∀ c ∈ changesFrom offset ts, c.opens ≤ w → w < c.closes → c.after ≤ c.before) :
    ∃ x, s < x ∧ x ≤ u ∧ clockFrom offset ts x = w := by
  induction ts generalizing offset s with
  | nil =>
    simp only [clockFrom, offsetFrom] at hs hu
    refine ⟨w - offset, by omega, by omega, ?_⟩
    simp only [clockFrom, offsetFrom]
    omega
  | cons t ts ih =>
    obtain ⟨_, tail⟩ := List.pairwise_cons.1 apart
    have no_gap_tail : ∀ c ∈ changesFrom t.offset ts,
        c.opens ≤ w → w < c.closes → c.after ≤ c.before :=
      fun c hc => no_gap c (List.mem_cons_of_mem _ hc)
    by_cases later : t.start ≤ s
    · rw [clockFrom_cons_of_le later] at hs
      rw [clockFrom_cons_of_le (Int.le_trans later hsu)] at hu
      obtain ⟨x, hsx, hxu, hx⟩ := ih tail hsu hs hu no_gap_tail
      exact ⟨x, hsx, hxu, by rwa [clockFrom_cons_of_le (by omega)]⟩
    · have before : s < t.start := Int.not_le.1 later
      rw [clockFrom_cons_of_lt before] at hs
      by_cases between : t.start ≤ u
      · by_cases early : w < t.start + offset
        · refine ⟨w - offset, by omega, by omega, ?_⟩
          rw [clockFrom_cons_of_lt (by omega)]
          omega
        · -- Not skipped, the time is at or past what the new offset begins with.
          have reached : t.start + t.offset ≤ w := by
            have head := no_gap _ List.mem_cons_self
            simp only [Change.opens, Change.closes] at head
            omega
          have ahead : ∀ d ∈ changesFrom t.offset ts, t.start - 1 < d.start := fun d hd => by
            have := start_le_start apart d hd
            omega
          rw [clockFrom_cons_of_le between] at hu
          obtain ⟨x, hsx, hxu, hx⟩ := ih (s := t.start - 1) tail (by omega)
            (by rw [clockFrom, offsetFrom_of_lt ahead]; omega) hu no_gap_tail
          refine ⟨x, by omega, hxu, ?_⟩
          rwa [clockFrom_cons_of_le (by omega)]
      · rw [clockFrom_cons_of_lt (Int.not_le.1 between)] at hu
        refine ⟨w - offset, by omega, by omega, ?_⟩
        rw [clockFrom_cons_of_lt (by omega)]
        omega

theorem offsetFrom_bounds {bound : Int} (first : -bound ≤ offset ∧ offset ≤ bound)
    (h : ∀ t ∈ ts, -bound ≤ t.offset ∧ t.offset ≤ bound) :
    -bound ≤ offsetFrom offset ts s ∧ offsetFrom offset ts s ≤ bound := by
  induction ts generalizing offset with
  | nil => exact first
  | cons t ts ih =>
    rw [offsetFrom]
    split
    · exact first
    · exact ih (h t List.mem_cons_self) fun d hd => h d (List.mem_cons_of_mem _ hd)

end TransitionLists

/-! ## Regular zones -/

section Regular

variable {z : Zone} (hz : z.IsRegular) {t u x : Instant} {w : WallClock}

theorem seconds_wallClock (z : Zone) (t : Instant) :
    (z.wallClock t).seconds = clockFrom z.initial z.transitions t.seconds := rfl

include hz in
/-- **The two views of a zone agree**: the clock shows a time at exactly the instants that the
time's reading names. -/
theorem wallClock_eq_iff :
    z.wallClock t = w ↔ w.seconds - t.seconds ∈ (z.reading w).offsets := by
  rw [reading, ← clockFrom_eq_iff hz.apart, ← seconds_wallClock, WallClock.mk.injEq]

include hz in
theorem offsetAt_bounds (t : Instant) :
    -largestOffset ≤ z.offsetAt t ∧ z.offsetAt t ≤ largestOffset :=
  offsetFrom_bounds hz.initial_bounds hz.offset_bounds

include hz in
theorem mem_instants_iff :
    t ∈ z.instants w ↔ t.IsWhole ∧ t.InRange ∧ z.wallClock t = w := by
  rw [instants, List.mem_filterMap, wallClock_eq_iff hz]
  constructor
  · rintro ⟨offset, named, found⟩
    obtain ⟨whole, inRange, same⟩ := Instant.atSecond?_eq_some_iff.1 found
    exact ⟨whole, inRange, by rwa [same, Int.sub_sub_self]⟩
  · rintro ⟨whole, inRange, named⟩
    exact ⟨_, named, Instant.atSecond?_eq_some_iff.2 ⟨whole, inRange, (Int.sub_sub_self _ _).symm⟩⟩

theorem pairwise_offsets (z : Zone) (w : WallClock) :
    (z.reading w).offsets.Pairwise (· > ·) := by
  cases h : z.reading w with
  | single _ => exact List.pairwise_singleton _ _
  | gap _ _ => exact List.Pairwise.nil
  | fold before after =>
    rw [Reading.offsets, List.pairwise_pair]
    exact lt_of_readingFrom_eq_fold h

theorem pairwise_instants (z : Zone) (w : WallClock) : (z.instants w).Pairwise (· < ·) := by
  apply List.Pairwise.filterMap _ _ (pairwise_offsets z w)
  intro offset offset' descending t ht u hu
  obtain ⟨_, _, ht⟩ := Instant.atSecond?_eq_some_iff.1 ht
  obtain ⟨whole, _, hu⟩ := Instant.atSecond?_eq_some_iff.1 hu
  rw [Instant.lt_iff_seconds_lt whole]
  omega

include hz in
/-- The instant that is found for a time is the first of those that come after `t`. -/
theorem firstInstant?_spec (h : z.firstInstant? w t = some u) :
    (u.IsWhole ∧ u.InRange ∧ z.wallClock u = w) ∧ t < u ∧
      ∀ x : Instant, x.IsWhole → x.InRange → z.wallClock x = w → t < x → u ≤ x := by
  refine ⟨(mem_instants_iff hz).1 (List.mem_of_find?_eq_some h), by simpa using List.find?_some h,
    ?_⟩
  intro x whole inRange shown later
  have member : x ∈ z.instants w := (mem_instants_iff hz).2 ⟨whole, inRange, shown⟩
  have ascending := pairwise_instants z w
  obtain ⟨_, front, back, split, early⟩ := List.find?_eq_some_iff_append.1 h
  rw [split] at member ascending
  rcases List.mem_append.1 member with hx | hx
  · have := early x hx
    simp only [later, decide_true, Bool.not_true, Bool.false_eq_true] at this
  · rcases List.mem_cons.1 hx with rfl | hx
    · exact Int.le_refl _
    · have tail := (List.pairwise_append.1 ascending).2.1
      exact Int.le_of_lt ((List.pairwise_cons.1 tail).1 x hx)

include hz in
/-- Where no instant is found for a time, the clock does not show it any more after `t`. -/
theorem firstInstant?_eq_none_iff :
    z.firstInstant? w t = none ↔
      ∀ x : Instant, x.IsWhole → x.InRange → z.wallClock x = w → ¬t < x := by
  rw [firstInstant?, List.find?_eq_none]
  constructor
  · intro h x whole inRange shown
    simpa using h x ((mem_instants_iff hz).2 ⟨whole, inRange, shown⟩)
  · intro h x hx
    obtain ⟨whole, inRange, shown⟩ := (mem_instants_iff hz).1 hx
    simpa using h x whole inRange shown

include hz in
/-- The clock falls behind an earlier view of itself only by a change in between. -/
theorem exists_change_of_clock_le (hlt : t.seconds < u.seconds)
    (hle : z.wallClock u ≤ z.wallClock t) :
    ∃ c ∈ z.changes, t.seconds < c.start ∧ c.start ≤ u.seconds ∧
      z.offsetAt t = c.before ∧ z.offsetAt u = c.after :=
  exists_change_of_clockFrom_le hz.apart hlt hle

include hz in
/-- An instant whose time comes again is rewound by the change that repeats it. -/
theorem rewound?_eq (hlt : t.seconds < u.seconds) (hle : z.wallClock u ≤ z.wallClock t) :
    z.rewound? t = some ⟨t.seconds + z.offsetAt u⟩ := by
  obtain ⟨c, hc, ht, hu, before, after⟩ := exists_change_of_clock_le hz hlt hle
  have below : (z.wallClock t).seconds < c.start + c.before :=
    clockFrom_lt_of_lt_start hz.apart hc ht
  have above : c.start + c.after ≤ (z.wallClock u).seconds :=
    le_clockFrom_of_start_le hz.apart hc hu
  have hle : (z.wallClock u).seconds ≤ (z.wallClock t).seconds := hle
  have sides := c.bounds
  have repeated : z.reading (z.wallClock t) = .fold c.before c.after := by
    rw [reading, readingFrom_eq hz.apart hc (by omega) (by omega), Change.reading,
      if_neg (by omega)]
  rw [rewound?, repeated, after]
  exact if_pos before

include hz in
/-- The clock does not fall behind the same view of itself twice. -/
theorem clock_lt_clock (htu : t.seconds < u.seconds) (hux : u.seconds < x.seconds)
    (hle : z.wallClock u ≤ z.wallClock t) : z.wallClock u < z.wallClock x := by
  by_cases ahead : (z.wallClock u).seconds < (z.wallClock x).seconds
  · exact ahead
  · obtain ⟨c, hc, ht, hu, _, _⟩ := exists_change_of_clock_le hz htu hle
    obtain ⟨d, hd, hu', hx, _, _⟩ := exists_change_of_clock_le hz hux (Int.not_lt.1 ahead)
    have below : (z.wallClock t).seconds < c.start + c.before :=
      clockFrom_lt_of_lt_start hz.apart hc ht
    have above : c.start + c.after ≤ (z.wallClock u).seconds :=
      le_clockFrom_of_start_le hz.apart hc hu
    have below' : (z.wallClock u).seconds < d.start + d.before :=
      clockFrom_lt_of_lt_start hz.apart hd hu'
    have above' : d.start + d.after ≤ (z.wallClock x).seconds :=
      le_clockFrom_of_start_le hz.apart hd hx
    have hle : (z.wallClock u).seconds ≤ (z.wallClock t).seconds := hle
    have sides := c.bounds
    have sides' := d.bounds
    rcases eq_or_of_pairwise hz.apart hc hd with rfl | before | behind
    · omega
    · omega
    · omega

include hz in
/-- The clock passes through every time that it shows at all. -/
theorem exists_wallClock_eq (htu : t.seconds ≤ u.seconds) (ht : z.wallClock t < w)
    (hu : w ≤ z.wallClock u) (shown : z.wallClock x = w) :
    ∃ y : Instant, y.IsWhole ∧ t.seconds < y.seconds ∧ y.seconds ≤ u.seconds ∧
      z.wallClock y = w := by
  have no_gap : ∀ c ∈ z.changes, c.opens ≤ w.seconds → w.seconds < c.closes →
      c.after ≤ c.before := by
    intro c hc hopens hcloses
    have named := (wallClock_eq_iff hz).1 shown
    rw [reading, readingFrom_eq hz.apart hc hopens hcloses] at named
    exact (Change.mem_offsets_reading.1 named).1
  obtain ⟨y, hty, hyu, hy⟩ := exists_clockFrom_eq hz.apart htu ht hu no_gap
  refine ⟨.ofSeconds y, Instant.isWhole_ofSeconds y, ?_, ?_, ?_⟩
  · rwa [Instant.seconds_ofSeconds]
  · rwa [Instant.seconds_ofSeconds]
  · rw [wallClock_eq_iff hz, Instant.seconds_ofSeconds, reading, ← clockFrom_eq_iff hz.apart, hy]

/-! ## Skipped hours -/

include hz in
/-- Only in a gap does a time leave its hour. -/
theorem exists_change_of_leavesHour (h : z.leavesHour w = true) :
    ∃ c ∈ z.changes, c.before < c.after ∧ c.opens ≤ w.seconds ∧ w.seconds < c.closes := by
  unfold leavesHour at h
  split at h
  · rename_i t found
    obtain ⟨_, _, nominal⟩ := Instant.atSecond?_eq_some_iff.1 found
    have moved : z.wallClock t ≠ w := by
      intro shown
      rw [shown] at h
      exact of_decide_eq_true h rfl
    rw [Ne, wallClock_eq_iff hz, nominal, Int.sub_sub_self] at moved
    cases view : z.reading w with
    | gap before after => exact exists_change_of_readingFrom_eq_gap view
    | single offset =>
      rw [view] at moved
      exact absurd (Reading.mem_offsets_single.2 rfl) moved
    | fold before after =>
      rw [view] at moved
      exact absurd (Reading.mem_offsets_fold.2 (.inl rfl)) moved
  · cases h

include hz in
/-- A zone skips no hour whose changes are shorter than one and do not follow each other within
one. -/
theorem skipsHour_eq_false (short : ∀ c ∈ z.changes, c.closes ≤ c.opens + 3599)
    (spaced : z.changes.Pairwise fun c d => c.closes + 3599 ≤ d.opens) (w : WallClock) :
    z.skipsHour w = false := by
  rw [Bool.eq_false_iff]
  intro skips
  rw [skipsHour, Bool.and_eq_true] at skips
  obtain ⟨c, hc, _, opens, closes⟩ := exists_change_of_leavesHour hz skips.1
  obtain ⟨d, hd, _, opens', closes'⟩ := exists_change_of_leavesHour hz skips.2
  simp only at opens' closes'
  rcases eq_or_of_pairwise spaced hc hd with rfl | before | behind
  · have := short c hc
    omega
  · omega
  · omega

end Regular

end Zone

end Recurrence
