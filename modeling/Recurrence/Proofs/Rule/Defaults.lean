import Recurrence.Proofs.Rule.Gathering

/-!
# The rule of some choices

A rule realises some choices when each of its sets holds the chosen values, or what the defaults say
where a field is left open (`Rule.Realises`). No two rules realise the same choices
(`Rule.Realises.unique`), and the rule of a selection realises those that were gathered in it
(`Selection.realises_toRule`).
-/

namespace Recurrence

namespace Choices

/-- Nothing is chosen for a field. -/
def Open (c : Choices) (f : Field) : Prop := ∀ v, ¬c f v

/-- There is no day of the month for weekdays to narrow. -/
def Unanchored (c : Choices) : Prop := c.Open .day ∧ c.Open .lastDay

/-- A weekday is chosen, Sunday as 0 or as 7. -/
def HasWeekday (c : Choices) (f : Field) (weekday : Nat) : Prop :=
  c f weekday ∨ weekday = 0 ∧ c f 7

/-- Values are chosen from their fields only. -/
def IsBounded (c : Choices) : Prop := ∀ f v, c f v → f.least ≤ v ∧ v ≤ f.greatest

end Choices

/-- The rule of some choices. Bits count months and days from one, days from the end of the month
downward, and all else from zero. Months, hours and minutes that were left open are unrestricted;
without seconds there are none. Days are left open only together with all weekdays; and where there
is no day to narrow, narrowing weekdays are weekdays like the others. -/
structure Rule.Realises (r : Rule) (c : Choices) : Prop where
  months : ∀ i, r.months.getLsbD i = true ↔ i < 12 ∧ (c .month (i + 1) ∨ c.Open .month)
  days : ∀ i, r.days.getLsbD i = true ↔ i < 31 ∧ (c .day (i + 1) ∨
    c.Unanchored ∧ c.Open .weekday ∧ c.Open .strictWeekday)
  lastDays : ∀ i, r.lastDays.getLsbD i = true ↔ i < 31 ∧ c .lastDay (31 - i)
  weekdays : ∀ i, r.weekdays.getLsbD i = true ↔ i < 7 ∧ (c.HasWeekday .weekday i ∨
    c.Unanchored ∧ c.HasWeekday .strictWeekday i)
  strictWeekdays : ∀ i, r.strictWeekdays.getLsbD i = true ↔
    i < 7 ∧ ¬c.Unanchored ∧ c.HasWeekday .strictWeekday i
  hours : ∀ i, r.hours.getLsbD i = true ↔ i < 24 ∧ (c .hour i ∨ c.Open .hour)
  minutes : ∀ i, r.minutes.getLsbD i = true ↔ i < 60 ∧ (c .minute i ∨ c.Open .minute)
  seconds : ∀ i, r.seconds.getLsbD i = true ↔ i < 60 ∧ c .second i

/-- Choices determine their rule. -/
theorem Rule.Realises.unique {r r' : Rule} {c : Choices} (h : r.Realises c) (h' : r'.Realises c) :
    r = r' := by
  have months := BitSet.ext_getLsbD fun i => (h.months i).trans (h'.months i).symm
  have days := BitSet.ext_getLsbD fun i => (h.days i).trans (h'.days i).symm
  have lastDays := BitSet.ext_getLsbD fun i => (h.lastDays i).trans (h'.lastDays i).symm
  have weekdays := BitSet.ext_getLsbD fun i => (h.weekdays i).trans (h'.weekdays i).symm
  have strict := BitSet.ext_getLsbD fun i => (h.strictWeekdays i).trans (h'.strictWeekdays i).symm
  have hours := BitSet.ext_getLsbD fun i => (h.hours i).trans (h'.hours i).symm
  have minutes := BitSet.ext_getLsbD fun i => (h.minutes i).trans (h'.minutes i).symm
  have seconds := BitSet.ext_getLsbD fun i => (h.seconds i).trans (h'.seconds i).symm
  cases r
  cases r'
  simp_all

/-- The value that a place in the bit set of a field stands for. -/
def Field.valueAt (f : Field) (i : Nat) : Nat :=
  match f with
  | day | month => i + 1
  | lastDay => 31 - i
  | _ => i

theorem Field.slot_eq_iff {f : Field} {v i : Nat} (h : f.least ≤ v ∧ v ≤ f.greatest) :
    f.slot v = i ↔ i < f.places ∧ v = f.valueAt i := by
  cases f <;> simp only [slot, valueAt, places, least, greatest] at * <;> omega

namespace Selection

variable {s : Selection} {c : Choices}

section

variable (h : empty.Adds c s) (bounded : c.IsBounded)
include h

theorem getLsbD_of_adds {f : Field} {i : Nat} :
    (s f).getLsbD i = true ↔ ∃ v, c f v ∧ f.slot v = i := by
  rw [h f i, empty, BitSet.getLsbD_zero]
  simp

theorem eq_zero_iff_open {f : Field} : s f = 0 ↔ c.Open f := by
  rw [BitSet.eq_zero_iff]
  constructor
  · intro none v chosen
    have member := (getLsbD_of_adds h).2 ⟨v, chosen, rfl⟩
    rw [none] at member
    cases member
  · intro none i
    rw [Bool.eq_false_iff, Ne, getLsbD_of_adds h]
    rintro ⟨v, chosen, _⟩
    exact none v chosen

include bounded

/-- A selection holds the places of what was gathered in it. -/
theorem getLsbD_iff {f : Field} {i : Nat} :
    (s f).getLsbD i = true ↔ i < f.places ∧ c f (f.valueAt i) := by
  rw [getLsbD_of_adds h]
  constructor
  · rintro ⟨v, chosen, place⟩
    obtain ⟨inside, rfl⟩ := (Field.slot_eq_iff (bounded f v chosen)).1 place
    exact ⟨inside, chosen⟩
  · rintro ⟨inside, chosen⟩
    exact ⟨_, chosen, (Field.slot_eq_iff (bounded f _ chosen)).2 ⟨inside, rfl⟩⟩

theorem setWidth_eq_zero_iff_open {f : Field} {w : Nat} (hw : f.places ≤ w) :
    (s f).setWidth w = (0 : BitSet w) ↔ c.Open f := by
  have inside : ∀ i, (s f).getLsbD i = true → i < f.places :=
    fun i member => ((getLsbD_iff h bounded).1 member).1
  rw [← eq_zero_iff_open h]
  constructor
  · intro none
    exact Classical.byContradiction fun some => setWidth_ne_zero hw inside some none
  · intro none
    rw [none]
    exact BitVec.setWidth_zero _ _

theorem getLsbD_orAll_iff {f : Field} {i : Nat} :
    (orAll f (s f)).getLsbD i = true ↔ i < f.places ∧ (c f (f.valueAt i) ∨ c.Open f) := by
  unfold orAll
  split
  · rename_i none
    have none := (eq_zero_iff_open h).1 none
    rw [Field.getLsbD_allValues]
    exact ⟨fun inside => ⟨inside, .inr none⟩, And.left⟩
  · rename_i some
    have some := mt (eq_zero_iff_open h).2 some
    rw [getLsbD_iff h bounded]
    simp only [some, or_false]

theorem getLsbD_setWidth_iff {f : Field} {w i : Nat} (hw : f.places ≤ w) :
    ((s f).setWidth w).getLsbD i = true ↔ i < f.places ∧ c f (f.valueAt i) := by
  rw [BitVec.getLsbD_setWidth, Bool.and_eq_true, decide_eq_true_eq, getLsbD_iff h bounded]
  exact and_iff_right_of_imp fun member => Nat.lt_of_lt_of_le member.1 hw

theorem getLsbD_setWidth_orAll_iff {f : Field} {w i : Nat} (hw : f.places ≤ w) :
    ((orAll f (s f)).setWidth w).getLsbD i = true ↔
      i < f.places ∧ (c f (f.valueAt i) ∨ c.Open f) := by
  rw [BitVec.getLsbD_setWidth, Bool.and_eq_true, decide_eq_true_eq, getLsbD_orAll_iff h bounded]
  exact and_iff_right_of_imp fun member => Nat.lt_of_lt_of_le member.1 hw

/-! ## Weekdays -/

theorem getLsbD_foldSunday_iff {f : Field} {i : Nat} (places : f.places = 8)
    (value : ∀ i, f.valueAt i = i) :
    (foldSunday (s f)).getLsbD i = true ↔ i < 7 ∧ c.HasWeekday f i := by
  rw [getLsbD_foldSunday, getLsbD_iff h bounded, getLsbD_iff h bounded, places, value, value]
  apply and_congr_right
  intro inside
  have first : i < 8 := by omega
  have last : 7 < 8 := by decide
  simp only [first, last, true_and]
  rfl

theorem foldSunday_eq_zero_iff_open {f : Field} (places : f.places = 8)
    (value : ∀ i, f.valueAt i = i) : foldSunday (s f) = 0 ↔ c.Open f := by
  rw [BitSet.eq_zero_iff]
  constructor
  · intro none v chosen
    have inside : v < 8 := by
      have member := (getLsbD_of_adds h).2 ⟨v, chosen, rfl⟩
      have place := (Field.slot_eq_iff (bounded f v chosen)).1 rfl
      rw [value, places] at place
      omega
    -- of the eight values the last one stands for the first weekday
    have folded : (foldSunday (s f)).getLsbD (v % 7) = true := by
      rw [getLsbD_foldSunday_iff h bounded places value]
      refine ⟨Nat.mod_lt v (by decide), ?_⟩
      by_cases last : v = 7
      · subst last
        exact .inr ⟨rfl, chosen⟩
      · rw [Nat.mod_eq_of_lt (by omega)]
        exact .inl chosen
    rw [none] at folded
    cases folded
  · intro none i
    rw [Bool.eq_false_iff, Ne, getLsbD_foldSunday_iff h bounded places value]
    rintro ⟨_, chosen | ⟨_, chosen⟩⟩
    · exact none i chosen
    · exact none 7 chosen

/-! ## All fields -/

/-- The rule of a selection realises what was gathered in it. -/
theorem realises_toRule : s.toRule.Realises c := by
  have unanchored : ((s .day).setWidth 32 = (0 : BitSet 32) ∧
      (s .lastDay).setWidth 32 = (0 : BitSet 32)) ↔ c.Unanchored :=
    and_congr (setWidth_eq_zero_iff_open h bounded (by decide))
      (setWidth_eq_zero_iff_open h bounded (by decide))
  have noWeekday := foldSunday_eq_zero_iff_open h bounded (f := .weekday) rfl fun _ => rfl
  have noStrict := foldSunday_eq_zero_iff_open h bounded (f := .strictWeekday) rfl fun _ => rfl
  have weekday {i : Nat} := getLsbD_foldSunday_iff h bounded (f := .weekday) (i := i) rfl
    fun _ => rfl
  have strict {i : Nat} := getLsbD_foldSunday_iff h bounded (f := .strictWeekday) (i := i) rfl
    fun _ => rfl
  constructor
  case months => exact fun i => getLsbD_setWidth_orAll_iff h bounded (f := .month) (by decide)
  case hours => exact fun i => getLsbD_setWidth_orAll_iff h bounded (f := .hour) (by decide)
  case minutes => exact fun i => getLsbD_orAll_iff h bounded (f := .minute)
  case seconds => exact fun i => getLsbD_iff h bounded (f := .second)
  case lastDays => exact fun i => getLsbD_setWidth_iff h bounded (f := .lastDay) (by decide)
  case days =>
    intro i
    have every : (((s .day).setWidth 32 = (0 : BitSet 32) ∧
        (s .lastDay).setWidth 32 = (0 : BitSet 32)) ∧
        foldSunday (s .weekday) = 0 ∧ foldSunday (s .strictWeekday) = 0) ↔
        c.Unanchored ∧ c.Open .weekday ∧ c.Open .strictWeekday :=
      and_congr unanchored (and_congr noWeekday noStrict)
    simp only [toRule]
    split
    · rename_i none
      have all := every.1 none
      rw [BitVec.getLsbD_setWidth, Bool.and_eq_true, decide_eq_true_eq, Field.getLsbD_allValues]
      have places : Field.day.places = 31 := rfl
      simp only [all, and_self, or_true, and_true, places]
      omega
    · rename_i chosen
      have some := mt every.2 chosen
      rw [getLsbD_setWidth_iff h bounded (by decide)]
      simp only [some, or_false]
      rfl
  case weekdays =>
    intro i
    simp only [toRule]
    split
    · rename_i none
      have none := unanchored.1 none
      simp only [BitVec.getLsbD_or, Bool.or_eq_true, weekday, strict, none, true_and, ← and_or_left]
    · rename_i some
      have some := mt unanchored.2 some
      simp only [weekday, some, false_and, or_false]
  case strictWeekdays =>
    intro i
    simp only [toRule]
    split
    · rename_i none
      have none := unanchored.1 none
      simp only [BitSet.getLsbD_zero, none, not_true_eq_false, false_and, and_false,
        Bool.false_eq_true]
    · rename_i some
      have some := mt unanchored.2 some
      simp only [strict, some, not_false_eq_true, true_and]

end

end Selection

/-- What was gathered from some input becomes the rule of the values that the input chooses. -/
theorem Gathers.toRule_eq_ok_iff {α ε : Type} {step : Selection → α → Except ε Selection}
    {ok : α → Prop} {chosen : α → Choices} {a : α} {r : Rule} (h : Gathers step ok chosen)
    (bounded : ok a → (chosen a).IsBounded) :
    (step Selection.empty a).map Selection.toRule = .ok r ↔ ok a ∧ r.Realises (chosen a) := by
  rw [Except.map_eq_ok_iff]
  constructor
  · intro made
    obtain ⟨s, gathered, rfl⟩ := made
    obtain ⟨good, adds⟩ := h.adds gathered
    exact ⟨good, Selection.realises_toRule adds (bounded good)⟩
  · intro made
    obtain ⟨good, realises⟩ := made
    obtain ⟨s, gathered⟩ := h.accepts good Selection.empty
    have adds := (h.adds gathered).2
    exact ⟨s, gathered, (Selection.realises_toRule adds (bounded good)).unique realises⟩

end Recurrence
