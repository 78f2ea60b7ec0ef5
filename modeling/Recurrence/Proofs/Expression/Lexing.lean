import Mathlib.Data.List.Chain
import Recurrence.Proofs.Expression.Bytes
import Recurrence.Proofs.Expression.Token

/-!
# Cutting loses nothing

Between the words of an input there are blanks and nothing else (`isBlankByte_of_not_covers`). Each
item of a word begins one byte behind the item before, where the comma was (`isChain_piecesFrom`),
and the last one ends where the word does (`stop_getLast?_piecesFrom`). So words and items show all
of an input, each piece at its own place, and add nothing to it (`isCut_words`).
-/

namespace Recurrence.Expression

/-! ## Words -/

/-- Some token has a position within it. -/
def Covers (ts : List Token) (i : Nat) : Prop := ∃ t ∈ ts, t.start ≤ i ∧ i < t.stop

section Words

variable {c : Char} {position i : Nat} {ts : List Token}

theorem covers_cons_self (hle : position ≤ i) (hlt : i < position + c.utf8Size) :
    Covers (Token.cons c position ts) i := by
  have within (text : List Char) : i < Token.stop ⟨c :: text, position⟩ := by
    show i < position + (c.utf8Size + byteLength text)
    omega
  unfold Token.cons
  split
  · exact ⟨_, List.mem_cons_self, hle, within []⟩
  · split
    · exact ⟨_, List.mem_cons_self, hle, within _⟩
    · exact ⟨_, List.mem_cons_self, hle, within []⟩

theorem Covers.cons (h : Covers ts i) : Covers (Token.cons c position ts) i := by
  obtain ⟨t, member, start, stop⟩ := h
  unfold Token.cons
  split
  · cases member
  · rename_i first ts
    split
    · rename_i joins
      cases List.mem_cons.1 member with
      | inl same =>
        refine ⟨_, List.mem_cons_self, ?_, ?_⟩
        · rw [same] at start
          show position ≤ i
          omega
        · rw [same, Token.stop] at stop
          show i < position + (c.utf8Size + byteLength first.text)
          omega
      | inr member => exact ⟨t, List.mem_cons_of_mem _ member, start, stop⟩
    · exact ⟨t, List.mem_cons_of_mem _ member, start, stop⟩

/-- A byte that no word of some text has is a blank. -/
theorem isBlankByte_of_not_covers {b : UInt8} {rest : List Char} (h : (utf8 rest)[i]? = some b)
    (bare : ¬Covers (wordsFrom position rest) (position + i)) : isBlankByte b = true := by
  induction rest generalizing position i with
  | nil => cases h
  | cons c rest ih =>
    rw [utf8, List.flatMap_cons, List.getElem?_append, String.length_utf8EncodeChar] at h
    rw [wordsFrom] at bare
    by_cases here : i < c.utf8Size
    · rw [if_pos here] at h
      by_cases blank : isBlank c = true
      · rw [isBlankByte_of_mem (List.mem_of_getElem? h), blank]
      · rw [if_neg blank] at bare
        exact absurd (covers_cons_self (Nat.le_add_right _ _) (Nat.add_lt_add_left here _)) bare
    · rw [if_neg here] at h
      apply ih h
      have shift : position + c.utf8Size + (i - c.utf8Size) = position + i := by omega
      rw [shift]
      intro covered
      split at bare
      · exact bare covered
      · exact bare covered.cons

/-- A word has characters, and none of them is a blank. -/
theorem solid_of_mem_wordsFrom {rest : List Char} {t : Token} (h : t ∈ wordsFrom position rest) :
    t.text ≠ [] ∧ ∀ c ∈ t.text, isBlank c = false := by
  induction rest generalizing position t with
  | nil => cases h
  | cons c rest ih =>
    rw [wordsFrom] at h
    split at h
    · exact ih h
    · rename_i solid
      have solid : isBlank c = false := by simpa using solid
      obtain rfl | ⟨first, member, _, rfl⟩ | member := of_mem_cons h
      · exact ⟨List.cons_ne_nil c [], List.forall_mem_singleton.2 solid⟩
      · exact ⟨List.cons_ne_nil c _, List.forall_mem_cons.2 ⟨solid, (ih member).2⟩⟩
      · exact ih member

end Words

/-! ## Items -/

/-- Each piece begins behind the comma at which the piece before it ends. -/
theorem isChain_piecesFrom (position : Nat) (rest : List Char) :
    ((piecesFrom position rest).1 :: (piecesFrom position rest).2).IsChain
      fun a b => b.start = a.stop + 1 := by
  induction rest generalizing position with
  | nil => exact List.isChain_singleton _
  | cons c rest ih =>
    have later := ih (position + c.utf8Size)
    by_cases comma : c = ','
    · simp only [piecesFrom, if_pos comma]
      refine List.isChain_cons_cons.2 ⟨?_, later⟩
      rw [start_piecesFrom, comma]
      rfl
    · rw [piecesFrom_cons_of_ne comma]
      cases others : (piecesFrom (position + c.utf8Size) rest).2 with
      | nil => exact List.isChain_singleton _
      | cons next others' =>
        rw [others, List.isChain_cons_cons, Token.stop, start_piecesFrom] at later
        refine List.isChain_cons_cons.2 ⟨?_, later.2⟩
        rw [later.1, Nat.add_assoc position]
        rfl

/-- The last piece ends where the text does. -/
theorem stop_getLast?_piecesFrom (position : Nat) (rest : List Char) :
    ((piecesFrom position rest).1 :: (piecesFrom position rest).2).getLast?.map Token.stop =
      some (position + byteLength rest) := by
  induction rest generalizing position with
  | nil => rfl
  | cons c rest ih =>
    have later := ih (position + c.utf8Size)
    rw [byteLength, ← Nat.add_assoc, ← later]
    by_cases comma : c = ','
    · simp only [piecesFrom, if_pos comma, List.getLast?_cons_cons]
    · rw [piecesFrom_cons_of_ne comma]
      cases others : (piecesFrom (position + c.utf8Size) rest).2 with
      | nil =>
        simp only [List.getLast?_singleton, Option.map_some, Token.stop, byteLength,
          start_piecesFrom, Nat.add_assoc]
      | cons next others' => simp only [List.getLast?_cons_cons]

/-! ## The whole cut -/

/-- Words that show all of an input: none is empty, each stands at its place and has no blanks, they
come in order with a byte or more in between, and a byte of no word is a blank. -/
structure IsCutAtBlanks (input : String) (words : List Token) : Prop where
  nonempty : ∀ t ∈ words, t.start < t.stop
  selected : ∀ t ∈ words, t.span.Selects input t.text
  solid : ∀ t ∈ words, ∀ c ∈ t.text, isBlank c = false
  apart : words.Pairwise Token.Precedes
  bare : ∀ i (h : i < input.toUTF8.size), ¬Covers words i → isBlankByte input.toUTF8[i] = true

/-- Items that show all of a token: each stands at its place in the input and has no comma, joined
by commas they are the token, and from its start to its end one begins a byte behind the other. -/
structure IsCutAtCommas (input : String) (t : Token) (items : List Token) : Prop where
  selected : ∀ item ∈ items, item.span.Selects input item.text
  free : ∀ item ∈ items, ',' ∉ item.text
  joined : List.intercalate [','] (items.map Token.text) = t.text
  first : items.head?.map Token.start = some t.start
  chained : items.IsChain fun a b => b.start = a.stop + 1
  last : items.getLast?.map Token.stop = some t.stop

theorem isCutAtBlanks_words (input : String) : IsCutAtBlanks input (words input.toList) where
  nonempty := by
    intro t member
    have positive : byteLength t.text ≠ 0 := fun none =>
      (solid_of_mem_wordsFrom member).1 (eq_nil_of_byteLength none)
    rw [Token.stop]
    omega
  selected := fun t member => (standsIn_of_mem_wordsFrom 0 _ t member).selects
  solid := fun t member => (solid_of_mem_wordsFrom member).2
  apart := pairwise_wordsFrom 0 _
  bare := by
    intro i h uncovered
    rw [words, ← Nat.zero_add i] at uncovered
    apply isBlankByte_of_not_covers _ uncovered
    simp only [toUTF8_eq, List.size_toByteArray] at h
    simp only [toUTF8_eq, List.getElem_toByteArray]
    exact List.getElem?_eq_getElem h

theorem isCutAtCommas_items {input : String} {t : Token} (h : t ∈ words input.toList) :
    IsCutAtCommas input t t.items where
  selected := fun item member =>
    ((Token.standsIn_of_mem_items member).trans (standsIn_of_mem_wordsFrom 0 _ t h)).selects
  free := fun item member => Token.comma_not_mem_of_mem_items member
  joined := by rw [Token.map_text_items, List.intercalate_splitOn]
  first := congrArg some (start_piecesFrom t.start t.text)
  chained := isChain_piecesFrom t.start t.text
  last := stop_getLast?_piecesFrom t.start t.text

/-- **Cutting an expression loses nothing and invents nothing**: its words are all of it that is not
blank, and the items of each word are all of the word save its commas. -/
theorem isCut_words (input : String) :
    IsCutAtBlanks input (words input.toList) ∧
      ∀ t ∈ words input.toList, IsCutAtCommas input t t.items :=
  ⟨isCutAtBlanks_words input, fun _ member => isCutAtCommas_items member⟩

end Recurrence.Expression
