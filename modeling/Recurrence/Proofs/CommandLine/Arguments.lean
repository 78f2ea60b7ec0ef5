import Recurrence.CommandLine.Arguments
import Recurrence.Proofs.Field.Stride
import Recurrence.Proofs.Text.Decimal

/-!
# Arguments of a listing

How many occurrences to list, after which moment and in which form can be said anywhere among the
arguments of a command line that leaves these open (`Request.ofArguments_listing`). The arguments
before them are read as they are without them (`readArguments_append`). Those after them only pass
on what was said (`Frames`): each action on a request either says something of the listing itself
or does the same whatever is said of it.
-/

namespace Recurrence.CommandLine

/-! ## What is said of a listing -/

/-- How many occurrences to list, after which moment and in which form. -/
structure Listing where
  json : Bool
  count : Nat
  start : String
deriving DecidableEq, Repr

/-- The arguments that ask for a listing. -/
def Listing.arguments (l : Listing) : List String :=
  (if l.json then ["--json"] else []) ++ ["-n", toString l.count, "--from", l.start]

namespace Request

/-- The same request for another listing. -/
def listing (r : Request) (l : Listing) : Request :=
  { r with json := l.json, count := some l.count, start := some l.start }

/-- A request in which nothing is said of the listing. -/
structure IsOpen (r : Request) : Prop where
  json : r.json = false
  count : r.count = none
  start : r.start = none

end Request

/-! ## Actions on a request -/

/-- If an action leaves a request open, then the request was open before, and whatever is said of
the listing, the action does the same. -/
def Frames (act : Request → Except Interruption Request) : Prop :=
  ∀ r r', act r = .ok r' → r'.IsOpen → r.IsOpen ∧ ∀ l, act (r.listing l) = .ok (r'.listing l)

/-- The same of an action that also says which setting still waits for its value. -/
def FramesWaiting (act : Request → Except Interruption (Option Setting × Request)) : Prop :=
  ∀ r r' waiting, act r = .ok (waiting, r') → r'.IsOpen →
    r.IsOpen ∧ ∀ l, act (r.listing l) = .ok (waiting, r'.listing l)

section

variable {act next : Request → Except Interruption Request}
  {wait : Request → Except Interruption (Option Setting × Request)}

theorem frames_error (e : Interruption) : Frames fun _ => .error e :=
  fun _ _ h => nomatch h

theorem framesWaiting_error (e : Interruption) : FramesWaiting fun _ => .error e :=
  fun _ _ _ h => nomatch h

theorem framesWaiting_ok (waiting : Option Setting) : FramesWaiting fun r => .ok (waiting, r) := by
  intro r r' _ done isOpen
  cases done
  exact ⟨isOpen, fun _ => rfl⟩

namespace Frames

theorem bind (h : Frames act) (h' : Frames next) : Frames fun r => act r >>= next := by
  intro r r' done isOpen
  obtain ⟨_, acted, done⟩ := Except.bind_eq_ok_iff.1 done
  obtain ⟨between, listed'⟩ := h' _ _ done isOpen
  obtain ⟨before, listed⟩ := h _ _ acted between
  exact ⟨before, fun l => Except.bind_eq_ok_iff.2 ⟨_, listed l, listed' l⟩⟩

theorem bind_waiting (h : Frames act) (h' : FramesWaiting wait) :
    FramesWaiting fun r => act r >>= wait := by
  intro r r' waiting done isOpen
  obtain ⟨_, acted, done⟩ := Except.bind_eq_ok_iff.1 done
  obtain ⟨between, listed'⟩ := h' _ _ _ done isOpen
  obtain ⟨before, listed⟩ := h _ _ acted between
  exact ⟨before, fun l => Except.bind_eq_ok_iff.2 ⟨_, listed l, listed' l⟩⟩

theorem map (h : Frames act) : FramesWaiting fun r => (act r).map (none, ·) := by
  intro r r' waiting done isOpen
  obtain ⟨_, acted, same⟩ := Except.map_eq_ok_iff.1 done
  cases same
  obtain ⟨before, listed⟩ := h _ _ acted isOpen
  exact ⟨before, fun l => Except.map_eq_ok_iff.2 ⟨_, listed l, rfl⟩⟩

end Frames

theorem FramesWaiting.bind {goOn : Option Setting → Request → Except Interruption Request}
    (h : FramesWaiting wait) (h' : ∀ waiting, Frames (goOn waiting)) :
    Frames fun r => wait r >>= fun p => goOn p.1 p.2 := by
  intro r r' done isOpen
  obtain ⟨⟨waiting, _⟩, acted, done⟩ := Except.bind_eq_ok_iff.1 done
  obtain ⟨between, listed'⟩ := h' waiting _ _ done isOpen
  obtain ⟨before, listed⟩ := h _ _ _ acted between
  exact ⟨before, fun l => Except.bind_eq_ok_iff.2 ⟨_, listed l, listed' l⟩⟩

end

/-! ## Switches and settings -/

theorem Switch.once_eq_ok_iff {s : Switch} {isOn : Bool} {on r : Request} :
    s.once isOn on = .ok r ↔ isOn = false ∧ on = r := by
  cases isOn <;> simp [once]

theorem Setting.once_eq_ok_iff {α : Type} {s : Setting} {old new : Option α} {value : String}
    {set : α → Request} {r : Request} :
    s.once old value new set = .ok r ↔ old = none ∧ ∃ x, new = some x ∧ set x = r := by
  cases old <;> cases new <;> simp [once]

theorem Request.takeExpression_eq_ok_iff {r r' : Request} {argument : String} :
    r.takeExpression argument = .ok r' ↔
      r.expression = none ∧ { r with expression := some argument } = r' := by
  rw [takeExpression]
  cases r.expression <;> simp

theorem frames_turnOn (s : Switch) : Frames s.turnOn := by
  intro r r' done isOpen
  cases s with
  | json =>
    obtain ⟨_, rfl⟩ := Switch.once_eq_ok_iff.1 done
    exact nomatch isOpen.json
  | check | normalize | weekdayOptional | noPresets =>
    obtain ⟨off, rfl⟩ := Switch.once_eq_ok_iff.1 done
    exact ⟨⟨isOpen.json, isOpen.count, isOpen.start⟩,
      fun l => Switch.once_eq_ok_iff.2 ⟨off, rfl⟩⟩
  | verbose =>
    cases done
    exact ⟨⟨isOpen.json, isOpen.count, isOpen.start⟩, fun l => rfl⟩
  | version | help => cases done

theorem frames_assign (s : Setting) (value : String) : Frames (s.assign value) := by
  intro r r' done isOpen
  cases s with
  | count =>
    obtain ⟨_, _, _, rfl⟩ := Setting.once_eq_ok_iff.1 done
    exact nomatch isOpen.count
  | start =>
    obtain ⟨_, _, _, rfl⟩ := Setting.once_eq_ok_iff.1 done
    exact nomatch isOpen.start
  | limit | seconds =>
    obtain ⟨unset, x, found, rfl⟩ := Setting.once_eq_ok_iff.1 done
    exact ⟨⟨isOpen.json, isOpen.count, isOpen.start⟩,
      fun l => Setting.once_eq_ok_iff.2 ⟨unset, x, found, rfl⟩⟩

theorem frames_takeExpression (argument : String) : Frames (·.takeExpression argument) := by
  intro r r' done isOpen
  obtain ⟨unset, rfl⟩ := Request.takeExpression_eq_ok_iff.1 done
  exact ⟨⟨isOpen.json, isOpen.count, isOpen.start⟩,
    fun l => Request.takeExpression_eq_ok_iff.2 ⟨unset, rfl⟩⟩

/-! ## Arguments -/

theorem framesWaiting_readShort (names : List Char) : FramesWaiting (readShort names) := by
  induction names with
  | nil => exact framesWaiting_ok none
  | cons c names ih =>
    show FramesWaiting fun r => readShort (c :: names) r
    simp only [readShort]
    split
    · exact (frames_turnOn _).bind_waiting ih
    · split
      · exact framesWaiting_ok _
      · exact (frames_assign _ _).map
      · exact (frames_assign _ _).map
    · exact framesWaiting_error _

theorem framesWaiting_readLong (name : List Char) (value : Option String) :
    FramesWaiting (readLong name value) := by
  unfold readLong
  split
  · split
    · exact (frames_turnOn _).map
    · exact framesWaiting_error _
  · split
    · exact framesWaiting_ok _
    · exact (frames_assign _ _).map
  · exact framesWaiting_error _

theorem framesWaiting_readArgument (argument : String) : FramesWaiting (readArgument argument) := by
  unfold readArgument
  split
  · split
    · exact framesWaiting_readLong _ _
    · exact framesWaiting_readLong _ _
  · exact framesWaiting_readShort _
  · exact (frames_takeExpression _).map

theorem frames_foldlM_takeExpression (arguments : List String) :
    Frames fun r => arguments.foldlM Request.takeExpression r := by
  induction arguments with
  | nil =>
    intro r r' done isOpen
    cases done
    exact ⟨isOpen, fun _ => rfl⟩
  | cons argument arguments ih => exact (frames_takeExpression argument).bind ih

theorem frames_readArguments (waiting : Option Setting) (arguments : List String) :
    Frames (readArguments waiting arguments) := by
  induction arguments generalizing waiting with
  | nil =>
    cases waiting with
    | none =>
      intro r r' done isOpen
      cases done
      exact ⟨isOpen, fun _ => rfl⟩
    | some setting => exact frames_error _
  | cons argument arguments ih =>
    cases waiting with
    | none =>
      show Frames fun r => readArguments none (argument :: arguments) r
      simp only [readArguments]
      split
      · exact frames_foldlM_takeExpression arguments
      · exact (framesWaiting_readArgument argument).bind ih
    | some setting =>
      show Frames fun r => readArguments (some setting) (argument :: arguments) r
      simp only [readArguments]
      split
      · exact frames_error _
      · exact (frames_assign setting argument).bind (ih none)

/-- Arguments are read one after another, up to `--`. -/
theorem readArguments_append {waiting : Option Setting} {front : List String} {r r' : Request}
    (separate : "--" ∉ front) (h : readArguments waiting front r = .ok r') (back : List String) :
    readArguments waiting (front ++ back) r = readArguments none back r' := by
  induction front generalizing waiting r with
  | nil =>
    cases waiting with
    | none =>
      cases h
      rfl
    | some setting => cases h
  | cons argument front ih =>
    rw [List.mem_cons, not_or] at separate
    obtain ⟨other, separate⟩ := separate
    cases waiting with
    | none =>
      rw [readArguments, if_neg (Ne.symm other)] at h
      obtain ⟨⟨waiting, _⟩, read, h⟩ := Except.bind_eq_ok_iff.1 h
      rw [List.cons_append, readArguments, if_neg (Ne.symm other), read]
      exact ih separate h
    | some setting =>
      rw [readArguments] at h
      split at h
      · cases h
      · rename_i plain
        obtain ⟨_, assigned, h⟩ := Except.bind_eq_ok_iff.1 h
        rw [List.cons_append, readArguments, if_neg plain, assigned]
        exact ih separate h

/-! ## The arguments of a listing -/

theorem toList_toString (n : Nat) : (toString n).toList = Decimal.write n :=
  String.toList_ofList

theorem readCount?_write {n : Nat} (h : n ≤ Setting.largestCount) :
    Setting.readCount? (Decimal.write n) = some n := by
  have read := Decimal.readUpTo?_eq_some_iff.2 ⟨Decimal.isNumeral_write n, h⟩
  unfold Setting.readCount?
  split
  · rename_i signed
    exact nomatch Decimal.isDigit_of_head?_write (congrArg List.head? signed)
  · rename_i signed
    exact nomatch Decimal.isDigit_of_head?_write (congrArg List.head? signed)
  · exact read

theorem looksLikeName_of_isDigit {text : String} {c : Char} (first : text.toList.head? = some c)
    (digit : c.isDigit = true) : looksLikeName text = false := by
  have other : c ≠ '-' := by
    rintro rfl
    cases digit
  simp [looksLikeName, first, other]

theorem looksLikeName_toString (n : Nat) : looksLikeName (toString n) = false := by
  cases first : (Decimal.write n).head? with
  | none => exact absurd (List.head?_eq_none_iff.1 first) (Decimal.write_ne_nil n)
  | some c =>
    refine looksLikeName_of_isDigit ?_ (Decimal.isDigit_of_head?_write first)
    rw [toList_toString, first]

section

variable {r r' : Request}

theorem readArguments_json (h : r.json = false) (rest : List String) :
    readArguments none ("--json" :: rest) r = readArguments none rest { r with json := true } := by
  have read : readArgument "--json" r = .ok (none, { r with json := true }) :=
    Except.map_eq_ok_iff.2 ⟨_, Switch.once_eq_ok_iff.2 ⟨h, rfl⟩, rfl⟩
  rw [readArguments, if_neg (by decide), read]
  rfl

theorem readArguments_setting {name value : String} {s : Setting} (separate : name ≠ "--")
    (named : readArgument name r = .ok (some s, r)) (plain : looksLikeName value = false)
    (assigned : s.assign value r = .ok r') (rest : List String) :
    readArguments none (name :: value :: rest) r = readArguments none rest r' := by
  rw [readArguments, if_neg separate, named]
  show readArguments (some s) (value :: rest) r = _
  rw [readArguments, if_neg (Bool.eq_false_iff.1 plain), assigned]
  rfl

theorem Listing.readArguments_arguments {l : Listing} (isOpen : r.IsOpen)
    (small : l.count ≤ Setting.largestCount) (plain : looksLikeName l.start = false)
    (rest : List String) :
    readArguments none (l.arguments ++ rest) r = readArguments none rest (r.listing l) := by
  have form : readArguments none (l.arguments ++ rest) r =
      readArguments none ("-n" :: toString l.count :: "--from" :: l.start :: rest)
        { r with json := l.json } := by
    rw [arguments]
    cases l.json with
    | false =>
      have same : { r with json := false } = r := by rw [← isOpen.json]
      rw [same]
      rfl
    | true => exact readArguments_json isOpen.json _
  have counted : Setting.count.assign (toString l.count) { r with json := l.json } =
      .ok { r with json := l.json, count := some l.count } := by
    refine Setting.once_eq_ok_iff.2 ⟨isOpen.count, l.count, ?_, rfl⟩
    rw [toList_toString, readCount?_write small]
  have started : Setting.start.assign l.start { r with json := l.json, count := some l.count } =
      .ok (r.listing l) :=
    Setting.once_eq_ok_iff.2 ⟨isOpen.start, l.start, rfl, rfl⟩
  rw [form, readArguments_setting (by decide) rfl (looksLikeName_toString _) counted,
    readArguments_setting (by decide) rfl plain started]

end

/-- What is said of a listing anywhere among the arguments fills in the request. -/
theorem Request.ofArguments_listing {front back : List String} {before r : Request} {l : Listing}
    (separate : "--" ∉ front) (read : ofArguments front = .ok before)
    (whole : ofArguments (front ++ back) = .ok r) (isOpen : r.IsOpen)
    (small : l.count ≤ Setting.largestCount) (plain : looksLikeName l.start = false) :
    ofArguments (front ++ l.arguments ++ back) = .ok (r.listing l) := by
  rw [ofArguments, readArguments_append separate read] at whole
  obtain ⟨beforeOpen, listed⟩ := frames_readArguments none back before r whole isOpen
  rw [ofArguments, List.append_assoc, readArguments_append separate read,
    l.readArguments_arguments beforeOpen small plain, listed]

end Recurrence.CommandLine
