import Recurrence.Expression.Item
import Recurrence.Proofs.Expression.Token
import Recurrence.Proofs.Field.Stride
import Recurrence.Proofs.Text.Decimal

/-!
# The grammar of items

An item is spelled `marker? range ("/" step)?` (`Item.Spelled`). Its range is a wildcard, a value or
two values joined by a hyphen (`Extent.Spelled`), and a value is a number or a name of the item's
field (`Field.Spells`). Each reader takes the texts of its rule and no others, up to
`Item.read_eq_ok_iff`.
-/

namespace Recurrence

/-! ## Values -/

theorem Char.toLower_of_isDigit {c : Char} (h : c.isDigit = true) : c.toLower = c := by
  simp only [Char.isDigit, Bool.and_eq_true, decide_eq_true_eq] at h
  apply dif_neg
  intro upper
  exact absurd (UInt32.le_trans upper.1 h.2) (by decide)

namespace Field

/-- Some text spells a value: as a numeral, or as one of the field's names in any mix of cases. The
value need not lie within the field. -/
inductive Spells (f : Field) (text : List Char) : Nat → Prop
  | number {n : Nat} (numeral : Decimal.IsNumeral text n) (small : n ≤ largestLiteral) :
      Spells f text n
  | name {i : Nat} {name : String} (found : f.names[i]? = some name)
      (same : text.map Char.toLower = name.toList) : Spells f text (i + f.least)

/-- The signs that put an item together. -/
def symbols : List Char := ['*', '?', '-', '/', '^', '&']

theorem nodup_names (f : Field) : f.names.Nodup := by
  cases f <;> decide

theorem letters_of_mem_names {f : Field} {name : String} (h : name ∈ f.names) :
    name.toList.all Char.isDigit = false ∧ symbols.all (· ∉ name.toList) = true := by
  revert name
  cases f <;> decide

variable {f : Field} {text : List Char} {v : Nat}

/-- A name is told from a numeral, since it has letters in it. -/
theorem isDigit_of_name {name : String} (h : name ∈ f.names)
    (same : text.map Char.toLower = name.toList) : text.all Char.isDigit = false := by
  rw [Bool.eq_false_iff]
  intro digits
  have unchanged : text.map Char.toLower = text := by
    apply (List.map_congr_left _).trans (List.map_id text)
    intro c member
    exact Char.toLower_of_isDigit (List.all_eq_true.1 digits c member)
  rw [← unchanged, same, (letters_of_mem_names h).1] at digits
  cases digits

theorem findIdx?_names_eq_some_iff {i : Nat} :
    f.names.findIdx? (fun name => name.toList == text.map Char.toLower) = some i ↔
      ∃ name, f.names[i]? = some name ∧ text.map Char.toLower = name.toList := by
  rw [List.findIdx?_eq_some_iff_getElem]
  constructor
  · intro h
    obtain ⟨inside, same, _⟩ := h
    exact ⟨f.names[i], List.getElem?_eq_getElem inside, (beq_iff_eq.1 same).symm⟩
  · intro h
    obtain ⟨name, found, same⟩ := h
    obtain ⟨inside, rfl⟩ := List.getElem?_eq_some_iff.1 found
    refine ⟨inside, beq_iff_eq.2 same.symm, ?_⟩
    intro j before equal
    have twice : f.names[j] = f.names[i] :=
      String.toList_inj.1 ((beq_iff_eq.1 equal).trans same)
    exact List.pairwise_iff_getElem.1 f.nodup_names j i _ inside before twice

theorem literal_eq_ok_iff : f.literal text = .ok v ↔ f.Spells text v := by
  rw [literal]
  constructor
  · intro h
    split at h
    · cases h
    · split at h
      · split at h
        · rename_i n number
          cases h
          obtain ⟨numeral, small⟩ := Decimal.readUpTo?_eq_some_iff.1 number
          exact .number numeral small
        · cases h
      · split at h
        · rename_i i found
          cases h
          obtain ⟨name, found, same⟩ := findIdx?_names_eq_some_iff.1 found
          exact .name found same
        · cases h
  · intro h
    cases h with
    | number numeral small =>
      rw [if_neg numeral.ne_nil, if_pos numeral.digits,
        Decimal.readUpTo?_eq_some_iff.2 ⟨numeral, small⟩]
    | name found same =>
      rename_i i name
      have letters := isDigit_of_name (List.mem_of_getElem? found) same
      have ne : text ≠ [] := by
        intro empty
        rw [empty] at letters
        cases letters
      rw [if_neg ne, if_neg (Bool.eq_false_iff.1 letters),
        findIdx?_names_eq_some_iff.2 ⟨name, found, same⟩]

theorem Spells.ne_nil (h : f.Spells text v) : text ≠ [] := by
  intro empty
  have read := literal_eq_ok_iff.2 h
  rw [literal, if_pos empty] at read
  cases read

/-- What spells a value holds none of the signs that put an item together. -/
theorem Spells.not_mem {c : Char} (h : f.Spells text v) (symbol : c ∈ symbols) : c ∉ text := by
  intro member
  cases h with
  | number numeral _ =>
    have none : ∀ c ∈ symbols, c.isDigit = false := by simp [symbols]
    have digit := List.all_eq_true.1 numeral.digits c member
    rw [none c symbol] at digit
    cases digit
  | name found same =>
    rename_i i name
    have unchanged : ∀ c ∈ symbols, c.toLower = c := by simp [symbols]
    have inside : c.toLower ∈ name.toList := by
      rw [← same]
      exact List.mem_map_of_mem member
    rw [unchanged c symbol] at inside
    have free := (letters_of_mem_names (List.mem_of_getElem? found)).2
    exact of_decide_eq_true (List.all_eq_true.1 free c symbol) inside

end Field

namespace Expression

/-! ## Ranges and steps -/

/-- The range of an item of a field. -/
inductive Extent.Spelled (f : Field) : List Char → Extent → Prop
  | any {text : List Char} (wildcard : text = ['*'] ∨ text = ['?']) : Spelled f text .any
  | one {text : List Char} {v : Nat} (value : f.Spells text v) : Spelled f text (.one v)
  | between {low high : List Char} {l h : Nat} (lower : f.Spells low l) (upper : f.Spells high h) :
      Spelled f (low ++ '-' :: high) (.between l h)

/-- What may follow the range of an item. -/
inductive StepSpelled : List Char → Option Nat → Prop
  | none : StepSpelled [] none
  | some {digits : List Char} {n : Nat} (numeral : Decimal.IsNumeral digits n) (positive : 1 ≤ n)
      (small : n ≤ largestStep) : StepSpelled ('/' :: digits) (some n)

variable {f : Field} {range text : List Char}

theorem isWildcard_iff : isWildcard text = true ↔ text = ['*'] ∨ text = ['?'] := by
  simp [isWildcard]

theorem isWildcard_of_mem {c : Char} (member : c ∈ text) (other : c ∉ ['*', '?']) :
    isWildcard text = false := by
  rw [Bool.eq_false_iff, Ne, isWildcard_iff]
  intro wildcard
  apply other
  cases wildcard with
  | inl star =>
    rw [star] at member
    exact List.mem_cons.2 (.inl (List.mem_singleton.1 member))
  | inr mark =>
    rw [mark] at member
    exact List.mem_cons_of_mem _ member

theorem isWildcard_of_spells {v : Nat} (h : f.Spells text v) : isWildcard text = false := by
  obtain ⟨c, rest, rfl⟩ := List.exists_cons_of_ne_nil h.ne_nil
  apply isWildcard_of_mem List.mem_cons_self
  intro wild
  have symbol : ∀ c ∈ ['*', '?'], c ∈ Field.symbols := by simp [Field.symbols]
  exact h.not_mem (symbol c wild) List.mem_cons_self

namespace Extent.Spelled

variable {e : Extent}

theorem ne_nil (h : e.Spelled f text) : text ≠ [] := by
  cases h with
  | any wildcard =>
    intro empty
    rw [empty] at wildcard
    revert wildcard
    decide
  | one value => exact value.ne_nil
  | between _ _ => exact List.append_ne_nil_of_right_ne_nil _ (List.cons_ne_nil _ _)

/-- A range ends where a step begins, and a marker does not belong to it. -/
theorem not_mem (h : e.Spelled f text) {c : Char} (symbol : c ∈ ['/', '^', '&']) : c ∉ text := by
  have own : ∀ c ∈ ['/', '^', '&'], c ∈ Field.symbols := by simp [Field.symbols]
  have own := own c symbol
  have apart : ∀ c ∈ ['/', '^', '&'], c ∉ ['*'] ∧ c ∉ ['?'] := by simp
  cases h with
  | any wildcard =>
    cases wildcard with
    | inl star =>
      rw [star]
      exact (apart c symbol).1
    | inr mark =>
      rw [mark]
      exact (apart c symbol).2
  | one value => exact value.not_mem own
  | between lower upper =>
    rw [List.mem_append, List.mem_cons]
    intro h
    rcases h with h | h | h
    · exact lower.not_mem own h
    · rw [h] at symbol
      revert symbol
      decide
    · exact upper.not_mem own h

theorem head?_ne (h : e.Spelled f text) (tail : List Char) (m : Marker) :
    (text ++ tail).head? ≠ some m.sign := by
  obtain ⟨c, rest, rfl⟩ := List.exists_cons_of_ne_nil h.ne_nil
  intro first
  have sign : m.sign ∈ ['/', '^', '&'] := by cases m <;> decide
  refine h.not_mem sign ?_
  rw [← Option.some.inj first]
  exact List.mem_cons_self

end Extent.Spelled

theorem readExtent_eq_ok_iff {marker : Option Marker} {e : Extent} :
    readExtent f marker text = .ok e ↔ e.Spelled f text ∧ (e = .any → marker = none) := by
  unfold readExtent
  constructor
  · intro h
    split at h
    · rename_i wildcard
      cases marker with
      | none =>
        cases h
        exact ⟨.any (isWildcard_iff.1 wildcard), fun _ => rfl⟩
      | some marker => cases h
    · split at h
      · obtain ⟨v, value, rfl⟩ := Except.map_eq_ok_iff.1 h
        exact ⟨.one (Field.literal_eq_ok_iff.1 value), nofun⟩
      · rename_i low high cut
        split at h
        · cases h
        · obtain ⟨l, lower, h⟩ := Except.bind_eq_ok_iff.1 h
          obtain ⟨u, upper, h⟩ := Except.bind_eq_ok_iff.1 h
          cases h
          have lower := Field.literal_eq_ok_iff.1 lower
          have upper := Field.literal_eq_ok_iff.1 upper
          rw [(cutAt?_eq_some_iff.1 cut).2]
          exact ⟨.between lower upper, nofun⟩
  · intro h
    obtain ⟨spelled, unmarked⟩ := h
    cases spelled with
    | any wildcard =>
      rw [if_pos (isWildcard_iff.2 wildcard), unmarked rfl]
    | one value =>
      rw [if_neg (Bool.eq_false_iff.1 (isWildcard_of_spells value)),
        cutAt?_eq_none_iff.2 (value.not_mem (by decide)), Field.literal_eq_ok_iff.2 value]
      rfl
    | between lower upper =>
      rename_i low high l u
      have range : isWildcard (low ++ '-' :: high) = false :=
        isWildcard_of_mem (List.mem_append_right low List.mem_cons_self) (by decide)
      rw [if_neg (Bool.eq_false_iff.1 range), cutAt?_append (lower.not_mem (by decide))]
      simp only [isWildcard_of_spells lower, isWildcard_of_spells upper,
        Field.literal_eq_ok_iff.2 lower, Field.literal_eq_ok_iff.2 upper]
      rfl

theorem readStep_eq_ok_iff {step : Nat} :
    readStep text = .ok step ↔ Decimal.IsNumeral text step ∧ 1 ≤ step ∧ step ≤ largestStep := by
  rw [readStep]
  constructor
  · intro h
    split at h
    · cases h
    · cases h
    · rename_i n positive number
      cases h
      obtain ⟨numeral, small⟩ := Decimal.readUpTo?_eq_some_iff.1 number
      exact ⟨numeral, Nat.pos_of_ne_zero positive, small⟩
  · intro h
    obtain ⟨numeral, positive, small⟩ := h
    rw [Decimal.readUpTo?_eq_some_iff.2 ⟨numeral, small⟩]
    match step with
    | step + 1 => rfl

theorem cutStep_eq_ok_iff {step : Option Nat} :
    cutStep text = .ok (range, step) ↔
      '/' ∉ range ∧ ∃ tail, text = range ++ tail ∧ StepSpelled tail step := by
  rw [cutStep]
  constructor
  · intro h
    split at h
    · rename_i whole
      cases h
      exact ⟨cutAt?_eq_none_iff.1 whole, [], (List.append_nil _).symm, .none⟩
    · rename_i front digits cut
      obtain ⟨n, number, same⟩ := Except.map_eq_ok_iff.1 h
      cases same
      obtain ⟨numeral, positive, small⟩ := readStep_eq_ok_iff.1 number
      obtain ⟨free, split⟩ := cutAt?_eq_some_iff.1 cut
      exact ⟨free, _, split, .some numeral positive small⟩
  · intro h
    obtain ⟨free, tail, rfl, spelled⟩ := h
    cases spelled with
    | none => rw [List.append_nil, cutAt?_eq_none_iff.2 free]
    | some numeral positive small =>
      rw [cutAt?_append free]
      simp only [readStep_eq_ok_iff.2 ⟨numeral, positive, small⟩]
      rfl

/-! ## Items -/

theorem ofSign?_eq_some_iff {c : Char} {marker : Marker} :
    Marker.ofSign? c = some marker ↔ marker.sign = c := by
  constructor
  · intro found
    exact of_decide_eq_true (List.find?_some (p := fun m : Marker => decide (m.sign = c)) found)
  · intro same
    rw [← same]
    cases marker <;> rfl

theorem readMarker_eq_ok_iff {column : Field} {marker : Option Marker} :
    readMarker column text = .ok (marker, range) ↔
      text = (marker.map Marker.sign).toList ++ range ∧ (∀ m ∈ marker, m.column = column) ∧
        (marker = none → ∀ m : Marker, range.head? ≠ some m.sign) := by
  rw [readMarker]
  constructor
  · intro h
    split at h
    · rename_i unmarked
      cases h
      refine ⟨rfl, nofun, fun _ m first => ?_⟩
      rw [first, Option.bind_some, ofSign?_eq_some_iff.2 rfl] at unmarked
      cases unmarked
    · rename_i m marked
      obtain ⟨c, first, sign⟩ := Option.bind_eq_some_iff.1 marked
      obtain ⟨rest, rfl⟩ := List.head?_eq_some_iff.1 first
      split at h
      · rename_i place
        cases h
        rw [← ofSign?_eq_some_iff.1 sign]
        refine ⟨rfl, fun _ same => ?_, nofun⟩
        cases same
        exact place
      · cases h
  · intro h
    obtain ⟨rfl, place, unmarked⟩ := h
    cases marker with
    | none =>
      have none : range.head?.bind Marker.ofSign? = none := by
        rw [Option.bind_eq_none_iff]
        intro c first
        rw [Option.eq_none_iff_forall_ne_some]
        intro m sign
        refine unmarked rfl m ?_
        rw [first, ofSign?_eq_some_iff.1 sign]
      simp only [Option.map_none, Option.toList_none, List.nil_append, none]
    | some m =>
      simp only [Option.map_some, Option.toList_some, List.singleton_append, List.head?_cons,
        Option.bind_some, ofSign?_eq_some_iff.2 rfl, place m rfl, if_true, List.tail_cons]

/-- An item of a column: `marker? range ("/" step)?`. A marker stands in its own column and moves
the item to its own field, and a wildcard has none. -/
inductive Item.Spelled (column : Field) : List Char → Item → Prop
  | mk (marker : Option Marker) {range step : List Char} {extent : Extent} {n : Option Nat}
      (place : ∀ m ∈ marker, m.column = column) (plain : extent = .any → marker = none)
      (ranged : extent.Spelled ((marker.map Marker.target).getD column) range)
      (stepped : StepSpelled step n) :
      Spelled column ((marker.map Marker.sign).toList ++ (range ++ step))
        ⟨(marker.map Marker.target).getD column, extent, n⟩

/-- The reader of items takes what the grammar spells, and nothing else. -/
theorem Item.read_eq_ok_iff {column : Field} {item : Item} :
    read column text = .ok item ↔ Spelled column text item := by
  rw [read]
  constructor
  · intro h
    split at h
    · cases h
    · obtain ⟨⟨marker, rest⟩, marked, h⟩ := Except.bind_eq_ok_iff.1 h
      obtain ⟨⟨range, step⟩, cut, h⟩ := Except.bind_eq_ok_iff.1 h
      obtain ⟨extent, ranged, h⟩ := Except.bind_eq_ok_iff.1 h
      cases h
      obtain ⟨rfl, place, _⟩ := readMarker_eq_ok_iff.1 marked
      obtain ⟨_, tail, rfl, stepped⟩ := cutStep_eq_ok_iff.1 cut
      obtain ⟨ranged, plain⟩ := readExtent_eq_ok_iff.1 ranged
      exact .mk marker place plain ranged stepped
  · intro h
    cases h with
    | mk marker place plain ranged stepped =>
      rename_i range step extent n
      have whole : (marker.map Marker.sign).toList ++ (range ++ step) ≠ [] :=
        List.append_ne_nil_of_right_ne_nil _ (List.append_ne_nil_of_left_ne_nil ranged.ne_nil _)
      have marked : readMarker column ((marker.map Marker.sign).toList ++ (range ++ step)) =
          .ok (marker, range ++ step) :=
        readMarker_eq_ok_iff.2 ⟨rfl, place, fun _ => ranged.head?_ne step⟩
      have cut : cutStep (range ++ step) = .ok (range, n) :=
        cutStep_eq_ok_iff.2 ⟨ranged.not_mem (by decide), step, rfl, stepped⟩
      have read := readExtent_eq_ok_iff.2 ⟨ranged, plain⟩
      rw [if_neg whole, marked]
      simp only [bind, Except.bind, cut, read]

end Expression

end Recurrence
