import Recurrence.Proofs.Expression.Leftmost
import Recurrence.Proofs.Machine.Builder
import Recurrence.Proofs.Machine.Token

/-!
# Expressions read within a machine's bounds

An expression is read from its bytes to a rule by the functions here, which do each partial
operation of a machine by a checked one: tokens are slices of the input, the place of a name and the
values it stands for are narrowed, the number of missing columns is a difference, and the sets of
the items and the words of the rule are those of `Field` and `Builder`. Each function yields what it
is specified to (`yields_readItem`, `yields_itemSet`, `yields_addItem`, `yields_addColumn`,
`yields_readColumns`, `yields_readPreset`), and so does the whole (`yields_read_and_build`). The
report of a failure takes the length of the place that it underlines, which begins before it ends
(`start_le_stop_of_read`).

The text of an expression may have a step that leaves no room for the walk over its range, and then
the walk traps. This is the one limit (`StepsLeaveRoom`).
-/

namespace Recurrence.Machine

open Expression

/-! ## Items -/

/-- Reads one value. A name counts from the least value of its field on, in a word of 64 bits with a
sign. -/
def literal (f : Field) (text : List Char) : Attempt Fault Nat :=
  if text = [] then throw .empty
  else if text.all Char.isDigit then
    match Decimal.readUpTo? Field.largestLiteral text with
    | some n => return n
    | none => throw (.notANumber (String.ofList text))
  else
    match f.names.findIdx? fun name => name.toList == text.map Char.toLower with
    | some i => do
      let i ← narrow 63 i
      sum 63 i f.least
    | none => throw (.notANumber (String.ofList text))

def readExtent (target : Field) (marker : Option Marker) (text : List Char) :
    Attempt Fault Extent :=
  if isWildcard text then
    match marker with
    | none => return .any
    | some marker => throw (.markedWildcard marker)
  else
    match cutAt? '-' text with
    | none => do
      let value ← literal target text
      return .one value
    | some (low, high) =>
      if isWildcard low || isWildcard high then throw .wildcardRange
      else do
        let low ← literal target low
        let high ← literal target high
        return .between low high

def readItem (column : Field) (text : List Char) : Attempt Fault Item :=
  if text = [] then throw .empty
  else do
    let (marker, text) ← .ofExcept (readMarker column text)
    let target := (marker.map Marker.target).getD column
    let (range, step) ← .ofExcept (cutStep text)
    let extent ← readExtent target marker range
    return ⟨target, extent, step⟩

/-- The set that an item adds to its field. -/
def itemSet (item : Item) : Attempt Fault (BitSet 64) :=
  let f := item.target
  match item.extent, item.step with
  | .any, none => if f = .day ∨ f = .weekday then return 0 else allValues f
  | .any, some step => rangeSet f f.least f.greatest step
  | .one v, none => rangeSet f v v 0
  | .one v, some step => rangeSet f v f.greatest step
  | .between low high, none => rangeSet f low high (if low < high then 1 else 0)
  | .between low high, some step => rangeSet f low high step

section Items

variable {f column : Field} {text : List Char} {item : Item}

theorem yields_literal (f : Field) (text : List Char) :
    Yields (literal f text) (f.literal text) := by
  unfold literal Field.literal
  by_cases empty : text = []
  · rw [if_pos empty, if_pos empty]
    rfl
  · rw [if_neg empty, if_neg empty]
    by_cases digits : text.all Char.isDigit = true
    · rw [if_pos digits, if_pos digits]
      cases Decimal.readUpTo? Field.largestLiteral text with
      | none => rfl
      | some n => rfl
    · rw [if_neg digits, if_neg digits]
      cases named : f.names.findIdx? fun name => name.toList == text.map Char.toLower with
      | none => rfl
      | some i =>
        obtain ⟨inside, _⟩ := List.findIdx?_eq_some_iff_getElem.1 named
        have few : f.names.length ≤ 12 := by cases f <;> decide
        have small : f.least ≤ 1 := by cases f <;> decide
        refine Yields.lift_bind (narrow_eq (by omega)) ?_
        rw [Int.toNat_natCast, sum_eq (by omega)]
        rfl

theorem yields_readExtent (target : Field) (marker : Option Marker) (text : List Char) :
    Yields (readExtent target marker text) (Expression.readExtent target marker text) := by
  unfold readExtent Expression.readExtent
  by_cases wild : isWildcard text = true
  · rw [if_pos wild, if_pos wild]
    cases marker with
    | none => rfl
    | some marker => rfl
  · rw [if_neg wild, if_neg wild]
    cases cutAt? '-' text with
    | none => exact (yields_literal target text).map
    | some parts =>
      obtain ⟨low, high⟩ := parts
      simp only
      by_cases wild : (isWildcard low || isWildcard high) = true
      · rw [if_pos wild, if_pos wild]
        rfl
      · rw [if_neg wild, if_neg wild]
        refine (yields_literal target low).bind fun low _ => ?_
        exact (yields_literal target high).bind fun high _ => rfl

theorem yields_readItem (column : Field) (text : List Char) :
    Yields (readItem column text) (Item.read column text) := by
  unfold readItem Item.read
  by_cases empty : text = []
  · rw [if_pos empty, if_pos empty]
    rfl
  · rw [if_neg empty, if_neg empty]
    refine (Yields.ofExcept _).bind fun (marker, text) _ => ?_
    refine (Yields.ofExcept _).bind fun (range, step) _ => ?_
    exact (yields_readExtent _ marker range).bind fun extent _ => rfl

/-- The step that is written behind the slash of an item. -/
def stepOf? (text : List Char) : Option Nat :=
  (cutAt? '/' text).bind fun parts => (readStep parts.2).toOption

theorem stepOf?_of_read (h : Item.read column text = .ok item) : stepOf? text = item.step := by
  cases Item.read_eq_ok_iff.1 h with
  | mk marker place plain ranged stepped =>
    rename_i range step extent n
    have sign : '/' ∉ (marker.map Marker.sign).toList := by
      cases marker with
      | none => exact List.not_mem_nil
      | some m => cases m <;> decide
    have free : '/' ∉ (marker.map Marker.sign).toList ++ range := by
      rw [List.mem_append, not_or]
      exact ⟨sign, ranged.not_mem List.mem_cons_self⟩
    rw [stepOf?, ← List.append_assoc]
    cases stepped with
    | none =>
      rw [List.append_nil, cutAt?_eq_none_iff.2 free]
      rfl
    | some numeral positive small =>
      rw [cutAt?_append free, Option.bind_some,
        readStep_eq_ok_iff.2 ⟨numeral, positive, small⟩]
      rfl

theorem yields_itemSet (h : ∀ n ∈ item.step, n ≤ largestStride) :
    Yields (itemSet item) item.set := by
  obtain ⟨f, extent, step⟩ := item
  unfold itemSet Item.set
  cases step with
  | none =>
    cases extent with
    | any =>
      simp only
      by_cases either : f = .day ∨ f = .weekday
      · rw [if_pos either, if_pos either]
        rfl
      · rw [if_neg either, if_neg either, allValues_eq]
        rfl
    | one v => exact yields_rangeSet (by decide)
    | between low high =>
      refine yields_rangeSet ?_
      split <;> decide
  | some step =>
    have small : step ≤ largestStride := h step rfl
    cases extent with
    | any => exact yields_rangeSet small
    | one v => exact yields_rangeSet small
    | between low high => exact yields_rangeSet small

end Items

/-! ## Rows -/

/-- Why an expression or some calls were refused. -/
inductive Failure
  | expression (e : Expression.Error)
  | clause (e : ClauseError)

/-- The rule that some calls build. -/
def build (clauses : List Clause) : Attempt Failure Rule :=
  ExceptT.adapt .clause (ofClauses clauses)

/-- Adds the item at a position of a column. -/
def addItem (input : String) (column : Field) (b : Builder) (item : Lexeme × Nat) :
    Attempt Expression.Error Builder := do
  let blame (f : Field) (fault : Fault) : Expression.Error :=
    ⟨.badItem f item.2 fault, item.1.span, input⟩
  let parsed ← ExceptT.adapt (blame column) (readItem column item.1.text)
  let set ← ExceptT.adapt (blame parsed.target) (itemSet parsed)
  b.union parsed.target set

def addColumn (input : String) (b : Builder) (column : Field × Lexeme) :
    Attempt Expression.Error Builder :=
  ((split column.2).zipIdx 1).foldlM (addItem input column.1) b

/-- The fields of a row of some columns. Of the columns that may be left out, those for seconds are
the first to be missing. -/
def layout (o : Options) (count : Nat) : Checked (List Field) := do
  let missing ← difference o.most count
  let optional := decide (o.seconds = .optional ∧ 0 < missing)
  let missing ← if optional then difference missing 1 else .ok missing
  let seconds := if o.seconds = .never ∨ optional then [] else [.second]
  let weekday := if o.weekdayOptional ∧ 0 < missing then [] else [.weekday]
  return seconds ++ [.minute, .hour, .day, .month] ++ weekday

def readColumns (o : Options) (input : String) (columns : List Lexeme) : Attempt Failure Rule :=
  if columns.length < o.fewest ∨ o.most < columns.length then
    throw (.expression ⟨.columnCount o.fewest o.most columns.length,
      ⟨0, byteLength input.toList⟩, input⟩)
  else do
    let fields ← layout o columns.length
    let b ← ExceptT.adapt .expression ((fields.zip columns).foldlM (addColumn input) Builder.empty)
    ExceptT.adapt .clause b.build

/-- The calls that a preset stands for. -/
def clausesOf (preset : Preset) : List Clause :=
  preset.choices.map fun (f, v) => .values f [v]

def readPreset (o : Options) (input : String) (word : Lexeme) (alone : Bool) :
    Attempt Failure Rule :=
  if !alone then throw (.expression ⟨.presetNotAlone, word.span, input⟩)
  else if !o.presets then throw (.expression ⟨.presetsDisabled, word.span, input⟩)
  else
    match Preset.ofName? word.text with
    | some preset => build (clausesOf preset)
    | none => throw (.expression ⟨.unknownPreset (String.ofList word.text), word.span, input⟩)

def read (o : Options) (input : String) : Attempt Failure Rule := do
  let words ← tokenize input
  match words.head?.filter fun word => word.text.head? = some '@' with
  | some word => readPreset o input word (words.length = 1)
  | none => readColumns o input words

section Rows

variable {o : Options} {input : String} {column : Field} {s : Selection} {t : Token}

theorem yields_addItem {position : Nat} (h : ∀ n ∈ stepOf? t.text, n ≤ largestStride) :
    Yields (addItem input column (.holding s) (.ofToken t, position))
      ((Expression.addItem input column s (t, position)).map .holding) := by
  unfold addItem Expression.addItem Expression.itemSet
  have parses := yields_readItem column t.text
  cases parsed : Item.read column t.text with
  | error fault =>
    rw [parsed] at parses
    exact (parses.adapt _).bind_error
  | ok item =>
    rw [parsed] at parses
    refine (parses.adapt _).bind_ok ?_
    -- The bound is on the text, which tells the step of the item that was read.
    rw [stepOf?_of_read parsed] at h
    have makes := yields_itemSet h
    simp only
    cases made : item.set with
    | error fault =>
      rw [made] at makes
      exact (makes.adapt _).bind_error
    | ok set =>
      rw [made] at makes
      refine (makes.adapt _).bind_ok ?_
      rw [Builder.union_eq]
      rfl

theorem yields_addColumn
    (h : ∀ item ∈ t.items, ∀ n ∈ stepOf? item.text, n ≤ largestStride) :
    Yields (addColumn input (.holding s) (column, .ofToken t))
      ((Expression.addColumn input s (column, t)).map .holding) := by
  rw [addColumn, split_eq, List.zipIdx_map, List.foldlM_map]
  refine Yields.foldlM Builder.holding (fun s item member => ?_) s
  exact yields_addItem (h item.1 (List.fst_mem_of_mem_zipIdx member))

theorem layout_eq {count : Nat} {fields : List Field} (h : o.layout? count = some fields) :
    layout o count = .ok fields := by
  have all : ∀ o : Options, ∀ count < 7, ∀ fields ∈ o.layout? count,
      layout o count = .ok fields := by
    intro o
    obtain ⟨seconds, weekdayOptional, presets⟩ := o
    cases seconds <;> cases weekdayOptional <;> cases presets <;> decide
  have most := most_lt o
  obtain ⟨_, upper, whole⟩ := layout?_bounds h
  exact all o count (by omega) fields h

theorem yields_readColumns {columns : List Token}
    (h : ∀ t ∈ columns, ∀ item ∈ t.items, ∀ n ∈ stepOf? item.text, n ≤ largestStride) :
    Yields (readColumns o input (columns.map .ofToken))
      ((Expression.readColumns o input columns).mapError .expression) := by
  unfold readColumns Expression.readColumns
  rw [List.length_map]
  cases laid : o.layout? columns.length with
  | none =>
    rw [if_pos (layout?_eq_none_iff.1 laid)]
    rfl
  | some fields =>
    obtain ⟨least, most, whole⟩ := layout?_bounds laid
    rw [if_neg (by omega)]
    refine Yields.lift_bind (layout_eq laid) ?_
    have rows : Yields ((fields.zip (columns.map .ofToken)).foldlM (addColumn input) .empty)
        (((fields.zip columns).foldlM (Expression.addColumn input) .empty).map .holding) := by
      rw [List.zip_map_right, List.foldlM_map, Builder.empty_eq]
      refine Yields.foldlM Builder.holding (fun s column member => ?_) _
      exact yields_addColumn (h column.2 (List.of_mem_zip member).2)
    simp only
    cases gathered : (fields.zip columns).foldlM (Expression.addColumn input) .empty with
    | error e =>
      rw [gathered] at rows
      exact (rows.adapt _).bind_error
    | ok s =>
      rw [gathered] at rows
      have bounded := foldlM_keeps (fun _ _ _ => isBounded_addColumn) Selection.isBounded_empty
        gathered
      exact (rows.adapt _).bind_ok ((yields_build bounded).adapt _)

theorem ofClauses_clausesOf (preset : Preset) :
    Rule.ofClauses (clausesOf preset) = .ok preset.rule := by
  cases preset <;> rfl

theorem yields_readPreset (o : Options) (input : String) (word : Token) (alone : Bool) :
    Yields (readPreset o input (.ofToken word) alone)
      ((Expression.readPreset o input word alone).mapError .expression) := by
  unfold readPreset Expression.readPreset
  by_cases others : (!alone) = true
  · rw [if_pos others, if_pos others]
    rfl
  · rw [if_neg others, if_neg others]
    by_cases disabled : (!o.presets) = true
    · rw [if_pos disabled, if_pos disabled]
      rfl
    · rw [if_neg disabled, if_neg disabled]
      simp only [Lexeme.ofToken]
      cases Preset.ofName? word.text with
      | none => rfl
      | some preset =>
        have single : ∀ c ∈ clausesOf preset, c.step ≤ largestStride := by
          cases preset <;> decide
        have built := yields_ofClauses single
        rw [ofClauses_clausesOf] at built
        exact built.adapt _

/-- The steps in an expression leave room for the walk that passes the end of a range. -/
def StepsLeaveRoom (input : String) : Prop :=
  ∀ word ∈ words input.toList, ∀ item ∈ word.items, ∀ n ∈ stepOf? item.text, n ≤ largestStride

instance (input : String) : Decidable (StepsLeaveRoom input) :=
  inferInstanceAs (Decidable (∀ word ∈ words input.toList, ∀ item ∈ word.items,
    ∀ n ∈ stepOf? item.text, n ≤ largestStride))

theorem yields_read (h : StepsLeaveRoom input) :
    Yields (read o input) ((Expression.read o input).mapError .expression) := by
  refine Yields.lift_bind (tokenize_eq input) ?_
  have sign : ((words input.toList).map Lexeme.ofToken).head?.filter
        (fun word => word.text.head? = some '@') =
      ((words input.toList).head?.filter fun word => word.text.head? = some '@').map .ofToken := by
    rw [List.head?_map, Option.filter_map]
    rfl
  unfold Expression.read
  rw [sign, List.length_map]
  cases named : (words input.toList).head?.filter fun word => word.text.head? = some '@' with
  | none =>
    simp only [named]
    exact yields_readColumns h
  | some word =>
    simp only [named]
    exact yields_readPreset o input word _

theorem start_le_stop_of_read {e : Expression.Error} (h : Expression.read o input = .error e) :
    e.span.start ≤ e.span.stop := by
  unfold Expression.read at h
  simp only at h
  split at h
  · rename_i word _
    have order := word.start_le_stop
    unfold Expression.readPreset at h
    split at h
    · cases h
      exact order
    · split at h
      · cases h
        exact order
      · split at h
        · cases h
        · cases h
          exact order
  · cases laid : o.layout? (words input.toList).length with
    | none =>
      simp only [Expression.readColumns, laid] at h
      cases h
      exact Nat.zero_le _
    | some fields =>
      obtain ⟨_, column, _, _, _, _, item, _, _, _, blamed, fault, _, rfl⟩ :=
        (readColumns_eq_error_iff laid).1 h
      exact item.start_le_stop

end Rows

/-! ## Reports -/

namespace Failure

def text : Failure → String
  | .expression e => e.report
  | .clause e => s!"error: {e.message}"

/-- The text of a failure, made from the length of its place. -/
def report : Failure → Checked String
  | .expression e => do
    let width ← difference e.span.stop e.span.start
    let underline := List.replicate (e.span.start + 2) ' ' ++ List.replicate (max width 1) '^'
    return s!"error: {e.message}\n  {e.input}\n" ++ String.ofList underline
  | .clause e => return s!"error: {e.message}"

theorem report_eq {e : Expression.Error} (h : e.span.start ≤ e.span.stop) :
    (expression e).report = .ok (expression e).text := by
  rw [report, difference_eq h]
  rfl

end Failure

/-- **Nothing traps.** Whatever the options and the text of an expression, and whatever the calls of
a builder, as long as no step is so large that a walk would leave the word of 32 bits: reading the
expression and building the rule keep every operation within its domain, come to the result that is
specified, and a failure of either can be reported. -/
theorem yields_read_and_build (o : Options) (input : String) (clauses : List Clause)
    (texts : StepsLeaveRoom input) (calls : ∀ c ∈ clauses, c.step ≤ largestStride) :
    Yields (read o input) ((Expression.read o input).mapError .expression) ∧
      Yields (build clauses) ((Rule.ofClauses clauses).mapError .clause) ∧
      ∀ failure : Failure, Yields (read o input) (.error failure) ∨
        Yields (build clauses) (.error failure) → failure.report = .ok failure.text := by
  have reads : Yields (read o input) ((Expression.read o input).mapError .expression) :=
    yields_read texts
  have builds : Yields (build clauses) ((Rule.ofClauses clauses).mapError .clause) :=
    (yields_ofClauses calls).adapt Failure.clause
  refine ⟨reads, builds, fun failure failed => ?_⟩
  cases failed with
  | inl refused =>
    obtain ⟨e, outcome, rfl⟩ := Except.mapError_eq_error_iff.1 (reads.unique refused)
    exact Failure.report_eq (start_le_stop_of_read outcome)
  | inr refused =>
    obtain ⟨e, _, rfl⟩ := Except.mapError_eq_error_iff.1 (builds.unique refused)
    rfl

/-- The largest step, behind the last minute, and a day that is no number. -/
def farStep : String := "59/4294967232 9 1,é * mon"

/-- The day that only long months have, counted from the end, with the largest step of 31 bits. -/
def longMonths : List Clause := [.range .lastDay 31 31 2147483647]

theorem yields_farStep :
    StepsLeaveRoom farStep ∧ (∀ c ∈ longMonths, c.step ≤ largestStride) ∧
      (∃ r, Yields (build longMonths) (.ok r) ∧ r.lastDays = 1) ∧
      ∃ failure, Yields (read {} farStep) (.error failure) ∧
        failure.report = .ok ("error: invalid day-of-month field (2nd value in list): " ++
          "'é' is not a number or a known name\n" ++
          "  59/4294967232 9 1,é * mon\n" ++
          "                    ^^") := by
  have texts : StepsLeaveRoom farStep := by decide
  have calls : ∀ c ∈ longMonths, c.step ≤ largestStride := by decide
  have refused : Expression.read {} farStep =
      .error ⟨.badItem .day 2 (.notANumber "é"), ⟨18, 20⟩, farStep⟩ := rfl
  obtain ⟨reads, builds, reports⟩ := yields_read_and_build {} farStep longMonths texts calls
  rw [refused] at reads
  refine ⟨texts, calls, ⟨_, builds, rfl⟩, _, reads, ?_⟩
  rw [reports _ (.inl reads)]
  decide +kernel

end Recurrence.Machine
