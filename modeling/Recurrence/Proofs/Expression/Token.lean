import Recurrence.Proofs.Expression.Position

/-!
# Words and pieces of a text

A text is cut into its non-empty stretches between blanks (`map_text_words`), and a column at its
commas (`Token.map_text_items`), so that columns joined by a blank are cut apart into the same
columns (`words_intercalate`) and items joined by commas into the same items
(`Token.items_intercalate`). An item is cut at the first occurrence of a character
(`cutAt?_append`).
-/

namespace Recurrence.Expression

/-! ## Joined text -/

theorem mem_intercalate {c : Char} {separator : List Char} {pieces : List (List Char)}
    (h : c ∈ List.intercalate separator pieces) : c ∈ separator ∨ ∃ piece ∈ pieces, c ∈ piece := by
  induction pieces with
  | nil => cases h
  | cons piece pieces ih =>
    match pieces with
    | [] =>
      rw [List.intercalate_singleton] at h
      exact .inr ⟨piece, List.mem_cons_self, h⟩
    | next :: pieces =>
      rw [List.intercalate_cons_cons, List.mem_append, List.mem_append] at h
      rcases h with (h | h) | h
      · exact .inr ⟨piece, List.mem_cons_self, h⟩
      · exact .inl h
      · rcases ih h with h | ⟨other, member, h⟩
        · exact .inl h
        · exact .inr ⟨other, List.mem_cons_of_mem piece member, h⟩

theorem intercalate_ne_nil {separator piece : List Char} {pieces : List (List Char)}
    (ne : piece ≠ []) : List.intercalate separator (piece :: pieces) ≠ [] := by
  match pieces with
  | [] =>
    rw [List.intercalate_singleton]
    exact ne
  | next :: pieces =>
    rw [List.intercalate_cons_cons, List.append_assoc]
    exact List.append_ne_nil_of_left_ne_nil ne _

/-! ## Words -/

section Words

variable {c : Char} {position : Nat} {rest : List Char}

/-- A word that does not go on is the first of the words. -/
theorem wordsFrom_singleton_append (solid : isBlank c = false)
    (ends : ∀ d ∈ rest.head?, isBlank d = true) :
    wordsFrom position (c :: rest) = ⟨[c], position⟩ :: wordsFrom (position + c.utf8Size) rest := by
  have apart : ∀ t ∈ wordsFrom (position + c.utf8Size) rest, t.start ≠ position + c.utf8Size := by
    intro t member
    match rest with
    | [] => cases member
    | d :: rest =>
      rw [wordsFrom, if_pos (ends d rfl)] at member
      have := (standsIn_of_mem_wordsFrom _ rest t member).le_start
      have := d.utf8Size_pos
      omega
  rw [wordsFrom, if_neg (by simp [solid])]
  cases following : wordsFrom (position + c.utf8Size) rest with
  | nil => rfl
  | cons t ts =>
    rw [following] at apart
    rw [Token.cons, if_neg (apart t List.mem_cons_self)]

theorem wordsFrom_cons_of_solid (position : Nat) (rest : List Char) (solid : isBlank c = false) :
    ∃ text ts, wordsFrom position (c :: rest) = ⟨text, position⟩ :: ts := by
  rw [wordsFrom, if_neg (by simp [solid])]
  cases wordsFrom (position + c.utf8Size) rest with
  | nil => exact ⟨_, _, rfl⟩
  | cons t ts =>
    rw [Token.cons]
    split
    · exact ⟨_, _, rfl⟩
    · exact ⟨_, _, rfl⟩

/-- The words of some text are its non-empty stretches between blanks. -/
theorem map_text_wordsFrom (position : Nat) (rest : List Char) :
    (wordsFrom position rest).map Token.text = (rest.splitOnP isBlank).filter (· ≠ []) := by
  induction rest generalizing position with
  | nil => rfl
  | cons c rest ih =>
    rw [List.splitOnP_cons_eq_if_modifyHead]
    cases first : isBlank c with
    | true =>
      rw [wordsFrom, if_pos first, if_pos rfl, List.filter_cons_of_neg (by simp)]
      exact ih (position + c.utf8Size)
    | false =>
      rw [if_neg Bool.false_ne_true]
      cases rest with
      | nil =>
        rw [wordsFrom_singleton_append first (by simp)]
        rfl
      | cons d rest =>
        have later := ih (position + c.utf8Size)
        rw [List.splitOnP_cons_eq_if_modifyHead] at later ⊢
        cases second : isBlank d with
        | true =>
          have ends : ∀ e ∈ (d :: rest).head?, isBlank e = true := by
            intro e same
            obtain rfl := Option.some.inj same
            exact second
          rw [second, if_pos rfl, List.filter_cons_of_neg (by simp)] at later
          rw [wordsFrom_singleton_append first ends, List.map_cons, later, if_pos rfl,
            List.modifyHead_cons, List.filter_cons_of_pos (by simp)]
        | false =>
          obtain ⟨text, ts, words⟩ :=
            wordsFrom_cons_of_solid (position + c.utf8Size) rest second
          obtain ⟨piece, pieces, split⟩ :=
            List.exists_cons_of_ne_nil (List.splitOnP_ne_nil isBlank rest)
          rw [words, second, if_neg Bool.false_ne_true, split, List.modifyHead_cons,
            List.filter_cons_of_pos (by simp), List.map_cons, List.cons_eq_cons] at later
          rw [wordsFrom, if_neg (by simp [first]), words, Token.cons, if_pos rfl,
            if_neg Bool.false_ne_true, split, List.modifyHead_cons, List.modifyHead_cons,
            List.filter_cons_of_pos (by simp), List.map_cons, later.1, later.2]

end Words

theorem map_text_words (input : List Char) :
    (words input).map Token.text = (input.splitOnP isBlank).filter (· ≠ []) :=
  map_text_wordsFrom 0 input

/-- Columns that are joined by a blank are the words of the joined text. -/
theorem words_intercalate {columns : List (List Char)}
    (h : ∀ column ∈ columns, column ≠ [] ∧ ∀ c ∈ column, isBlank c = false) :
    (words (List.intercalate [' '] columns)).map Token.text = columns := by
  rw [map_text_words]
  induction columns with
  | nil => rfl
  | cons column columns ih =>
    obtain ⟨ne, solid⟩ := h column List.mem_cons_self
    have later := ih fun other member => h other (List.mem_cons_of_mem column member)
    match columns with
    | [] =>
      rw [List.intercalate_singleton, List.splitOnP_eq_singleton solid,
        List.filter_cons_of_pos (by simpa using ne)]
      rfl
    | next :: columns =>
      rw [List.intercalate_cons_cons, List.append_assoc, List.singleton_append,
        List.splitOnP_append_cons_of_forall_mem solid ' ' rfl,
        List.filter_cons_of_pos (by simpa using ne), later]

/-! ## Pieces -/

theorem map_text_piecesFrom (position : Nat) (rest : List Char) :
    ((piecesFrom position rest).1 :: (piecesFrom position rest).2).map Token.text =
      rest.splitOn ',' := by
  induction rest generalizing position with
  | nil => rfl
  | cons c rest ih =>
    rw [List.splitOn_cons_eq_if_modifyHead]
    by_cases comma : c = ','
    · subst comma
      rw [if_pos (beq_self_eq_true ',')]
      exact congrArg _ (ih (position + ','.utf8Size))
    · rw [if_neg (by simpa using comma), piecesFrom_cons_of_ne comma,
        ← ih (position + c.utf8Size)]
      rfl

theorem comma_not_mem_of_mem_piecesFrom (position : Nat) (rest : List Char) :
    ∀ t ∈ (piecesFrom position rest).1 :: (piecesFrom position rest).2, ',' ∉ t.text := by
  induction rest generalizing position with
  | nil =>
    intro t member
    cases List.mem_singleton.1 member
    exact List.not_mem_nil
  | cons c rest ih =>
    intro t member
    obtain rfl | ⟨other, rfl⟩ | later := mem_piecesFrom_cons member
    · exact List.not_mem_nil
    · rw [List.mem_cons, not_or]
      exact ⟨Ne.symm other, ih _ _ List.mem_cons_self⟩
    · exact ih _ t later

namespace Token

/-- The items of a column are what stands between its commas. -/
theorem map_text_items (t : Token) : t.items.map Token.text = t.text.splitOn ',' :=
  map_text_piecesFrom t.start t.text

/-- Items that are joined by commas are the items of the joined text. -/
theorem items_intercalate {t : Token} {items : List (List Char)} (ne : items ≠ [])
    (free : ∀ item ∈ items, ',' ∉ item) (h : t.text = List.intercalate [','] items) :
    t.items.map Token.text = items := by
  rw [t.map_text_items, h, List.splitOn_intercalate ',' free ne]

theorem comma_not_mem_of_mem_items {t item : Token} (h : item ∈ t.items) : ',' ∉ item.text :=
  comma_not_mem_of_mem_piecesFrom t.start t.text item h

/-- A column without commas is its only item. -/
theorem items_of_comma_not_mem {t : Token} (h : ',' ∉ t.text) : t.items = [t] := by
  have texts := t.map_text_items
  rw [List.splitOn_eq_singleton h] at texts
  obtain ⟨item, alone, text⟩ := List.map_eq_singleton_iff.1 texts
  have first : (piecesFrom t.start t.text).1 = item := (List.cons.inj alone).1
  have start : item.start = t.start := by
    rw [← first]
    exact start_piecesFrom t.start t.text
  obtain ⟨_, _⟩ := item
  cases text
  cases start
  exact alone

end Token

/-! ## Cuts -/

section Cuts

variable {separator : Char} {front back : List Char}

theorem cutAt?_append (free : separator ∉ front) :
    cutAt? separator (front ++ separator :: back) = some (front, back) := by
  induction front with
  | nil => exact if_pos rfl
  | cons c front ih =>
    rw [List.mem_cons, not_or] at free
    rw [List.cons_append, cutAt?, if_neg (Ne.symm free.1), ih free.2]
    rfl

theorem cutAt?_eq_none_iff : cutAt? separator front = none ↔ separator ∉ front := by
  induction front with
  | nil => exact ⟨fun _ => List.not_mem_nil, fun _ => rfl⟩
  | cons c front ih =>
    rw [cutAt?, List.mem_cons, not_or]
    split
    · rename_i same
      exact ⟨nofun, fun free => absurd same.symm free.1⟩
    · rename_i other
      rw [Option.map_eq_none_iff, ih, and_iff_right (Ne.symm other)]

theorem cutAt?_eq_some_iff {text : List Char} :
    cutAt? separator text = some (front, back) ↔
      separator ∉ front ∧ text = front ++ separator :: back := by
  constructor
  · induction text generalizing front with
    | nil =>
      intro h
      cases h
    | cons c text ih =>
      rw [cutAt?]
      split
      · rename_i same
        rintro ⟨⟩
        exact ⟨List.not_mem_nil, by rw [same, List.nil_append]⟩
      · rename_i other
        rw [Option.map_eq_some_iff]
        rintro ⟨⟨front, back⟩, found, ⟨⟩⟩
        obtain ⟨free, split⟩ := ih found
        refine ⟨?_, by rw [split, List.cons_append]⟩
        rw [List.mem_cons, not_or]
        exact ⟨Ne.symm other, free⟩
  · rintro ⟨free, rfl⟩
    exact cutAt?_append free

end Cuts

end Recurrence.Expression
