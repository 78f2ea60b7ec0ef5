import Recurrence.Proofs.Expression.Lexing
import Recurrence.Proofs.Machine.Operation

/-!
# Tokens within a machine's bounds

The words of an input are found by walking over its bytes and sliced out between two positions. A
slice must begin and end between whole characters (`slice`); it does, because a walk stops where a
character begins whatever bytes the characters have (`skip_utf8`). So the input is cut into its
words (`tokenize_eq`), and a word into its items by counting their bytes (`split_eq`).

Positions are natural numbers: no text is longer than a machine's word can count.
-/

namespace Recurrence.Machine

open Expression

/-- A piece of the input and its place. -/
structure Lexeme where
  text : List Char
  span : Span

def Lexeme.ofToken (t : Token) : Lexeme := ⟨t.text, t.span⟩

/-! ## Slices -/

/-- What is left of a text behind some bytes, if these are whole characters. -/
def dropBytes? : Nat → List Char → Option (List Char)
  | n, [] => if n = 0 then some [] else none
  | n, c :: rest =>
    if n = 0 then some (c :: rest)
    else if c.utf8Size ≤ n then dropBytes? (n - c.utf8Size) rest
    else none

/-- Some bytes from the front of a text, if these are whole characters. -/
def takeBytes? : Nat → List Char → Option (List Char)
  | n, [] => if n = 0 then some [] else none
  | n, c :: rest =>
    if n = 0 then some []
    else if c.utf8Size ≤ n then (takeBytes? (n - c.utf8Size) rest).map (c :: ·)
    else none

/-- What a text has between two positions. -/
def slice (text : List Char) (start stop : Nat) : Checked (List Char) := do
  require (start ≤ stop) .slice
  match (dropBytes? start text).bind (takeBytes? (stop - start)) with
  | some piece => return piece
  | none => throw .slice

theorem dropBytes?_append (front rest : List Char) :
    dropBytes? (byteLength front) (front ++ rest) = some rest := by
  induction front with
  | nil => cases rest <;> exact if_pos rfl
  | cons c front ih =>
    have positive := c.utf8Size_pos
    rw [List.cons_append, dropBytes?, byteLength, if_neg (by omega), if_pos (by omega),
      Nat.add_sub_cancel_left, ih]

theorem takeBytes?_append (piece rest : List Char) :
    takeBytes? (byteLength piece) (piece ++ rest) = some piece := by
  induction piece with
  | nil => cases rest <;> exact if_pos rfl
  | cons c piece ih =>
    have positive := c.utf8Size_pos
    rw [List.cons_append, takeBytes?, byteLength, if_neg (by omega), if_pos (by omega),
      Nat.add_sub_cancel_left, ih]
    rfl

theorem slice_eq (front piece rest : List Char) :
    slice (front ++ (piece ++ rest)) (byteLength front) (byteLength front + byteLength piece) =
      .ok piece := by
  rw [slice, require_eq (Nat.le_add_right _ _), ok_bind, dropBytes?_append, Nat.add_sub_cancel_left,
    Option.bind_some, takeBytes?_append]
  rfl

/-! ## Walks over bytes -/

/-- The first position from `i` on behind which the bytes do not go on as told. -/
def skip (goesOn : UInt8 → Bool) (bytes : List UInt8) (i : Nat) : Checked Nat :=
  if i < bytes.length then do
    if goesOn (← elementAt bytes i) then skip goesOn bytes (i + 1) else return i
  else return i
termination_by bytes.length - i

section Skip

variable {p : UInt8 → Bool} {q : Char → Bool} {bytes : List UInt8} {i j : Nat}

theorem elementAt_eq {α : Type} {l : List α} (h : i < l.length) : elementAt l i = .ok l[i] := by
  rw [elementAt, List.getElem?_eq_getElem h]

theorem skip_of_lt (h : i < bytes.length) :
    skip p bytes i = if p bytes[i] then skip p bytes (i + 1) else .ok i := by
  rw [skip, if_pos h, elementAt_eq h]
  rfl

/-- A walk goes over the bytes that go on as told. -/
theorem skip_eq (p : UInt8 → Bool) (bytes : List UInt8) (i : Nat) :
    skip p bytes i = .ok (i + ((bytes.drop i).takeWhile p).length) := by
  by_cases inside : i < bytes.length
  · rw [skip_of_lt inside, List.drop_eq_getElem_cons inside, List.takeWhile_cons]
    split
    · rw [skip_eq p bytes (i + 1), List.length_cons]
      congr 1
      omega
    · rfl
  · rw [skip, if_neg inside, List.drop_eq_nil_of_le (Nat.le_of_not_lt inside)]
    rfl
termination_by bytes.length - i

theorem le_of_skip (h : skip p bytes i = .ok j) : i ≤ j := by
  rw [skip_eq] at h
  cases h
  exact Nat.le_add_right _ _

theorem lt_of_skip (h : skip p bytes i = .ok j) (inside : i < bytes.length)
    (goesOn : p bytes[i] = true) : i < j := by
  rw [skip_of_lt inside, if_pos goesOn] at h
  exact le_of_skip h

theorem not_of_skip {i : Nat} (h : skip p bytes i = .ok j) (inside : j < bytes.length) :
    p bytes[j] = false := by
  by_cases more : i < bytes.length
  · rw [skip_of_lt more] at h
    split at h
    · exact not_of_skip h inside
    · rename_i stops
      cases h
      exact Bool.eq_false_iff.2 stops
  · rw [skip, if_neg more] at h
    cases h
    exact absurd inside more
termination_by bytes.length - i

/-- A text begins with a run of characters of some kind, possibly none. -/
theorem exists_run (q : Char → Bool) (text : List Char) :
    ∃ run rest, text = run ++ rest ∧ (∀ c ∈ run, q c = true) ∧ ∀ c ∈ rest.head?, q c = false := by
  refine ⟨text.takeWhile q, text.dropWhile q, List.takeWhile_append_dropWhile.symm,
    List.all_eq_true.1 List.all_takeWhile, fun c first => ?_⟩
  have stops := List.head?_dropWhile_not q text
  rwa [first] at stops

theorem takeWhile_utf8 (same : ∀ c, ∀ b ∈ String.utf8EncodeChar c, p b = q c) (text : List Char) :
    (utf8 text).takeWhile p = utf8 (text.takeWhile q) := by
  induction text with
  | nil => rfl
  | cons c rest ih =>
    have step : utf8 (c :: rest) = String.utf8EncodeChar c ++ utf8 rest := List.flatMap_cons
    rw [step, List.takeWhile_cons]
    cases goesOn : q c with
    | true =>
      rw [List.takeWhile_append_of_pos fun b member => (same c b member).trans goesOn, ih]
      rfl
    | false =>
      obtain ⟨b, bytes, first⟩ : ∃ b bytes, String.utf8EncodeChar c = b :: bytes := by
        apply List.exists_cons_of_ne_nil
        intro none
        have size := String.length_utf8EncodeChar c
        rw [none] at size
        exact absurd size.symm (Nat.pos_iff_ne_zero.1 c.utf8Size_pos)
      have stops : ¬p b = true := by
        rw [same c b (first ▸ List.mem_cons_self), goesOn]
        exact Bool.false_ne_true
      rw [first, List.cons_append, List.takeWhile_cons_of_neg stops]
      rfl

/-- Whole characters go on or stop together, so that a walk ends between characters. -/
theorem skip_utf8 (same : ∀ c, ∀ b ∈ String.utf8EncodeChar c, p b = q c) {run rest : List Char}
    (front : List Char) (goesOn : ∀ c ∈ run, q c = true) (ends : ∀ c ∈ rest.head?, q c = false) :
    skip p (utf8 (front ++ (run ++ rest))) (byteLength front) =
      .ok (byteLength front + byteLength run) := by
  have stops : rest.takeWhile q = [] := by
    cases rest with
    | nil => rfl
    | cons c rest => exact List.takeWhile_cons_of_neg (Bool.eq_false_iff.1 (ends c rfl))
  rw [skip_eq, utf8_append, List.drop_left' (length_utf8 front), takeWhile_utf8 same, length_utf8,
    List.takeWhile_append_of_pos goesOn, stops, List.append_nil]

end Skip

/-! ## Words -/

/-- The words of a text from a position on. -/
def tokenizeFrom (text : List Char) (i : Nat) : Checked (List Lexeme) :=
  match blanks : skip isBlankByte (utf8 text) i with
  | .error trap => .error trap
  | .ok start =>
    if inside : start < (utf8 text).length then
      match solid : skip (fun b => !isBlankByte b) (utf8 text) start with
      | .error trap => .error trap
      | .ok stop => do
        have forward : (utf8 text).length - stop < (utf8 text).length - i := by
          have toStart := le_of_skip blanks
          have toStop := lt_of_skip solid inside (congrArg not (not_of_skip blanks inside))
          omega
        let word ← slice text start stop
        let later ← tokenizeFrom text stop
        return ⟨word, ⟨start, stop⟩⟩ :: later
    else .ok []
termination_by (utf8 text).length - i

def tokenize (input : String) : Checked (List Lexeme) :=
  tokenizeFrom input.toList 0

section Words

variable {position : Nat}

theorem wordsFrom_blanks {blanks : List Char} (h : ∀ c ∈ blanks, isBlank c = true)
    (rest : List Char) :
    wordsFrom position (blanks ++ rest) = wordsFrom (position + byteLength blanks) rest := by
  induction blanks generalizing position with
  | nil => rfl
  | cons c blanks ih =>
    obtain ⟨blank, later⟩ := List.forall_mem_cons.1 h
    rw [List.cons_append, wordsFrom, if_pos blank, ih later, byteLength, Nat.add_assoc]

/-- Characters without a blank, up to a blank or the end, are the first of the words. -/
theorem wordsFrom_solid {c : Char} {word rest : List Char} (h : ∀ d ∈ c :: word, isBlank d = false)
    (ends : ∀ d ∈ rest.head?, isBlank d = true) :
    wordsFrom position (c :: word ++ rest) =
      ⟨c :: word, position⟩ :: wordsFrom (position + byteLength (c :: word)) rest := by
  induction word generalizing position c with
  | nil => exact wordsFrom_singleton_append (h c List.mem_cons_self) ends
  | cons d word ih =>
    obtain ⟨solid, later⟩ := List.forall_mem_cons.1 h
    rw [List.cons_append, wordsFrom, if_neg (by simp [solid])]
    simp only [ih later]
    rw [Token.cons, if_pos rfl, Nat.add_assoc]
    rfl

theorem tokenizeFrom_of_le {text : List Char} {i start : Nat}
    (blanks : skip isBlankByte (utf8 text) i = .ok start) (ends : (utf8 text).length ≤ start) :
    tokenizeFrom text i = .ok [] := by
  rw [tokenizeFrom]
  split
  · rename_i trap found
    rw [blanks] at found
    cases found
  · rename_i found
    rw [blanks] at found
    cases found
    exact dif_neg (Nat.not_lt.2 ends)

theorem tokenizeFrom_of_lt {text word : List Char} {i start stop : Nat} {later : List Lexeme}
    (blanks : skip isBlankByte (utf8 text) i = .ok start) (inside : start < (utf8 text).length)
    (solid : skip (fun b => !isBlankByte b) (utf8 text) start = .ok stop)
    (sliced : slice text start stop = .ok word) (rest : tokenizeFrom text stop = .ok later) :
    tokenizeFrom text i = .ok (⟨word, ⟨start, stop⟩⟩ :: later) := by
  rw [tokenizeFrom]
  split
  · rename_i trap found
    rw [blanks] at found
    cases found
  · rename_i found
    rw [blanks] at found
    cases found
    rw [dif_pos inside]
    split
    · rename_i trap found
      rw [solid] at found
      cases found
    · rename_i found
      rw [solid] at found
      cases found
      rw [sliced, ok_bind, rest]
      rfl

/-- From a position between two characters on, the walks go over blanks to the next word and over
the word to its end. -/
theorem tokenizeFrom_eq (front text : List Char) :
    tokenizeFrom (front ++ text) (byteLength front) =
      .ok ((wordsFrom (byteLength front) text).map Lexeme.ofToken) := by
  obtain ⟨blanks, remaining, cut, blank, ends⟩ := exists_run isBlank text
  have toStart := skip_utf8 (fun c b => isBlankByte_of_mem) front blank ends
  rw [cut, wordsFrom_blanks blank]
  cases remaining with
  | nil =>
    rw [tokenizeFrom_of_le toStart]
    · rfl
    · rw [length_utf8, byteLength_append, List.append_nil]
  | cons c tail =>
    have solidBytes (c : Char) (b : UInt8) (h : b ∈ String.utf8EncodeChar c) :
        (!isBlankByte b) = !isBlank c := congrArg not (isBlankByte_of_mem h)
    obtain ⟨word, rest, whole, solid, stops⟩ := exists_run (fun c => !isBlank c) (c :: tail)
    have toStop := skip_utf8 solidBytes (front ++ blanks) solid stops
    cases word with
    | nil =>
      have first := stops c (by rw [← List.nil_append rest, ← whole]; rfl)
      rw [ends c rfl] at first
      cases first
    | cons d word =>
      have solid : ∀ e ∈ d :: word, isBlank e = false := fun e member => by
        simpa using solid e member
      have stops : ∀ e ∈ rest.head?, isBlank e = true := fun e first => by
        simpa using stops e first
      have shorter : rest.length < text.length := by
        rw [cut, whole, List.length_append, List.length_append, List.length_cons]
        omega
      have sliced := slice_eq (front ++ blanks) (d :: word) rest
      have later := tokenizeFrom_eq (front ++ blanks ++ d :: word) rest
      rw [whole, wordsFrom_solid solid stops]
      rw [whole] at toStart
      simp only [byteLength_append, List.append_assoc] at toStart toStop sliced ⊢
      simp only [byteLength_append, List.append_assoc, ← Nat.add_assoc] at later
      have inside : byteLength front + byteLength blanks <
          (utf8 (front ++ (blanks ++ (d :: word ++ rest)))).length := by
        have positive := d.utf8Size_pos
        rw [length_utf8, byteLength_append, byteLength_append, byteLength_append, byteLength]
        omega
      rw [tokenizeFrom_of_lt toStart inside toStop sliced later]
      rfl
termination_by text.length

end Words

theorem tokenize_eq (input : String) :
    tokenize input = .ok ((words input.toList).map Lexeme.ofToken) :=
  tokenizeFrom_eq [] input.toList

/-! ## Items -/

/-- Pieces one behind the other, each with a comma behind it, from an offset on. -/
def place (base offset : Nat) : List (List Char) → List Lexeme
  | [] => []
  | text :: rest =>
    ⟨text, ⟨base + offset, base + offset + byteLength text⟩⟩ ::
      place base (offset + byteLength text + 1) rest

def split (t : Lexeme) : List Lexeme :=
  place t.span.start 0 (t.text.splitOn ',')

theorem place_eq {base offset : Nat} {ts : List Token}
    (chained : ts.IsChain fun a b => b.start = a.stop + 1)
    (first : ∀ t ∈ ts.head?, t.start = base + offset) :
    place base offset (ts.map Token.text) = ts.map Lexeme.ofToken := by
  induction ts generalizing offset with
  | nil => rfl
  | cons t ts ih =>
    have start : t.start = base + offset := first t rfl
    have later : ∀ u ∈ ts.head?, u.start = base + (offset + byteLength t.text + 1) := by
      intro u member
      have next := List.IsChain.rel_head? chained member
      rw [next, Token.stop, start]
      omega
    rw [List.map_cons, place, ih chained.tail later, List.map_cons, Lexeme.ofToken, Token.span,
      Token.stop, start]

/-- A word is split into its items. -/
theorem split_eq (t : Token) : split (.ofToken t) = t.items.map Lexeme.ofToken := by
  have pieces := t.map_text_items
  show place t.start 0 (t.text.splitOn ',') = _
  rw [← pieces]
  refine place_eq (isChain_piecesFrom t.start t.text) fun u member => ?_
  cases member
  exact start_piecesFrom t.start t.text

end Recurrence.Machine
