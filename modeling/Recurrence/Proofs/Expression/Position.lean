import Recurrence.Expression.Token

/-!
# Where tokens stand

A token stands in a text when the text has the token's characters behind as many bytes as the
token's position tells (`Token.StandsIn`). The words of a text stand in it
(`standsIn_of_mem_wordsFrom`), and so do the items of each word (`Token.standsIn_of_mem_items`), so
that the place of a token selects its characters out of the whole input (`Span.Selects`,
`Token.StandsIn.selects`), between whole characters and however many bytes these take. In their
lists words and items come as they do in the text, each ending before the next one begins
(`pairwise_wordsFrom`, `Token.pairwise_items`).
-/

namespace Recurrence.Expression

/-! ## Bytes -/

theorem byteLength_append (front back : List Char) :
    byteLength (front ++ back) = byteLength front + byteLength back := by
  induction front with
  | nil => rw [List.nil_append, byteLength, Nat.zero_add]
  | cons c front ih => rw [List.cons_append, byteLength, byteLength, ih, Nat.add_assoc]

theorem eq_nil_of_byteLength {text : List Char} (h : byteLength text = 0) : text = [] := by
  cases text with
  | nil => rfl
  | cons c rest =>
    have := c.utf8Size_pos
    rw [byteLength] at h
    omega

theorem utf8ByteSize_ofList (text : List Char) :
    (String.ofList text).utf8ByteSize = byteLength text := by
  induction text with
  | nil => rfl
  | cons c rest ih =>
    have first : String.ofList [c] = String.singleton c := rfl
    rw [← List.singleton_append, String.ofList_append, String.utf8ByteSize_append, first,
      String.utf8ByteSize_singleton, ih]
    rfl

/-- A place in an input selects a piece of it: the input has the piece between the two positions,
each of which lies between whole characters. -/
def Span.Selects (s : Span) (input : String) (piece : List Char) : Prop :=
  ∃ before after : String, input = before ++ String.ofList piece ++ after ∧
    s.start = before.utf8ByteSize ∧ s.stop = (before ++ String.ofList piece).utf8ByteSize

namespace Token

variable {t : Token} {position : Nat} {c : Char} {text rest : List Char}

/-- A token stands in a text that begins at some position. -/
def StandsIn (t : Token) (position : Nat) (text : List Char) : Prop :=
  ∃ before after, text = before ++ t.text ++ after ∧ t.start = position + byteLength before

/-- A token ends before another one begins. -/
def Precedes (t t' : Token) : Prop := t.stop < t'.start

theorem start_le_stop (t : Token) : t.start ≤ t.stop := Nat.le_add_right _ _

namespace StandsIn

theorem le_start (h : t.StandsIn position text) : position ≤ t.start := by
  obtain ⟨before, after, _, start⟩ := h
  omega

theorem stop_le (h : t.StandsIn position text) : t.stop ≤ position + byteLength text := by
  obtain ⟨before, after, rfl, start⟩ := h
  rw [stop, start, byteLength_append, byteLength_append]
  omega

theorem cons (h : t.StandsIn (position + c.utf8Size) rest) : t.StandsIn position (c :: rest) := by
  obtain ⟨before, after, rfl, start⟩ := h
  refine ⟨c :: before, after, rfl, ?_⟩
  rw [start, byteLength, Nat.add_assoc]

/-- A token that begins where its text does goes on to the front. -/
theorem cons_text (h : t.StandsIn (position + c.utf8Size) rest)
    (first : t.start = position + c.utf8Size) :
    StandsIn ⟨c :: t.text, position⟩ position (c :: rest) := by
  obtain ⟨before, after, rfl, start⟩ := h
  obtain rfl : before = [] := eq_nil_of_byteLength (by omega)
  exact ⟨[], after, rfl, rfl⟩

theorem trans {piece : Token} (h : piece.StandsIn t.start t.text) (ht : t.StandsIn position text) :
    piece.StandsIn position text := by
  obtain ⟨before, after, inside, start⟩ := h
  obtain ⟨before', after', rfl, start'⟩ := ht
  refine ⟨before' ++ before, after ++ after', ?_, ?_⟩
  · rw [inside]
    simp only [List.append_assoc]
  · rw [start, start', byteLength_append, Nat.add_assoc]

/-- The place of a token that stands in an input selects the token's characters. -/
theorem selects {input : String} (h : t.StandsIn 0 input.toList) :
    t.span.Selects input t.text := by
  obtain ⟨before, after, whole, start⟩ := h
  refine ⟨String.ofList before, String.ofList after, ?_, ?_, ?_⟩
  · rw [← String.ofList_append, ← String.ofList_append, ← whole, String.ofList_toList]
  · rw [utf8ByteSize_ofList, span, start, Nat.zero_add]
  · rw [← String.ofList_append, utf8ByteSize_ofList, byteLength_append, span, stop, start,
      Nat.zero_add]

end StandsIn

end Token

/-! ## Words -/

/-- The words with a character put before them: the character alone, the first word when it joins
that, and words there were. -/
theorem of_mem_cons {t : Token} {c : Char} {position : Nat} {ts : List Token}
    (h : t ∈ Token.cons c position ts) :
    t = ⟨[c], position⟩ ∨
      (∃ first ∈ ts, first.start = position + c.utf8Size ∧ t = ⟨c :: first.text, position⟩) ∨
      t ∈ ts := by
  unfold Token.cons at h
  split at h
  · exact .inl (List.mem_singleton.1 h)
  · split at h
    · rename_i joins
      cases List.mem_cons.1 h with
      | inl same => exact .inr (.inl ⟨_, List.mem_cons_self, joins, same⟩)
      | inr later => exact .inr (.inr (List.mem_cons_of_mem _ later))
    · cases List.mem_cons.1 h with
      | inl same => exact .inl same
      | inr later => exact .inr (.inr later)

theorem standsIn_of_mem_cons {c : Char} {position : Nat} {rest : List Char} {ts : List Token}
    (later : ∀ t ∈ ts, t.StandsIn (position + c.utf8Size) rest) :
    ∀ t ∈ Token.cons c position ts, t.StandsIn position (c :: rest) := by
  intro t member
  obtain rfl | ⟨first, inside, joins, rfl⟩ | inside := of_mem_cons member
  · exact ⟨[], rest, rfl, rfl⟩
  · exact (later first inside).cons_text joins
  · exact (later t inside).cons

theorem standsIn_of_mem_wordsFrom (position : Nat) (rest : List Char) :
    ∀ t ∈ wordsFrom position rest, t.StandsIn position rest := by
  induction rest generalizing position with
  | nil =>
    intro t member
    cases member
  | cons c rest ih =>
    intro t member
    simp only [wordsFrom] at member
    split at member
    · exact (ih _ t member).cons
    · exact standsIn_of_mem_cons (ih _) t member

/-- A character before some words in order is in order with them, whether it joins the first of them
or not. -/
theorem pairwise_cons {c : Char} {position : Nat} {ts : List Token}
    (behind : ∀ t ∈ ts, position + c.utf8Size ≤ t.start) (later : ts.Pairwise Token.Precedes) :
    (Token.cons c position ts).Pairwise Token.Precedes := by
  unfold Token.cons
  split
  · exact List.pairwise_singleton _ _
  · rename_i first ts
    obtain ⟨ahead, rest⟩ := List.pairwise_cons.1 later
    split
    · rename_i joins
      refine List.pairwise_cons.2 ⟨fun t member => ?_, rest⟩
      have := ahead t member
      simp only [Token.Precedes, Token.stop, byteLength] at this ⊢
      omega
    · rename_i apart
      refine List.pairwise_cons.2 ⟨fun t member => ?_, later⟩
      have := behind first List.mem_cons_self
      have := first.start_le_stop
      simp only [Token.Precedes, Token.stop, byteLength]
      cases List.mem_cons.1 member with
      | inl same =>
        rw [same]
        omega
      | inr member =>
        have := ahead t member
        simp only [Token.Precedes] at this
        omega

theorem pairwise_wordsFrom (position : Nat) (rest : List Char) :
    (wordsFrom position rest).Pairwise Token.Precedes := by
  induction rest generalizing position with
  | nil => exact .nil
  | cons c rest ih =>
    simp only [wordsFrom]
    split
    · exact ih _
    · exact pairwise_cons (fun t member => (standsIn_of_mem_wordsFrom _ _ t member).le_start) (ih _)

/-! ## Items -/

section Pieces

variable {t : Token} {position : Nat} {c : Char} {rest : List Char}

theorem piecesFrom_cons_of_ne (h : c ≠ ',') :
    piecesFrom position (c :: rest) =
      (⟨c :: (piecesFrom (position + c.utf8Size) rest).1.text, position⟩,
        (piecesFrom (position + c.utf8Size) rest).2) := by
  simp only [piecesFrom, if_neg h]

/-- The pieces of a text that begins with some character: nothing in front of a comma, the first of
the later pieces with another character in front of it, and later pieces. -/
theorem mem_piecesFrom_cons
    (h : t ∈ (piecesFrom position (c :: rest)).1 :: (piecesFrom position (c :: rest)).2) :
    t = ⟨[], position⟩ ∨
      (c ≠ ',' ∧ t = ⟨c :: (piecesFrom (position + c.utf8Size) rest).1.text, position⟩) ∨
      t ∈ (piecesFrom (position + c.utf8Size) rest).1 ::
        (piecesFrom (position + c.utf8Size) rest).2 := by
  by_cases comma : c = ','
  · simp only [piecesFrom, if_pos comma] at h
    cases List.mem_cons.1 h with
    | inl same => exact .inl same
    | inr later => exact .inr (.inr later)
  · rw [piecesFrom_cons_of_ne comma] at h
    cases List.mem_cons.1 h with
    | inl same => exact .inr (.inl ⟨comma, same⟩)
    | inr later => exact .inr (.inr (List.mem_cons_of_mem _ later))

theorem start_piecesFrom (position : Nat) (rest : List Char) :
    (piecesFrom position rest).1.start = position := by
  cases rest with
  | nil => rfl
  | cons c rest =>
    simp only [piecesFrom]
    split <;> rfl

theorem standsIn_of_mem_piecesFrom (position : Nat) (rest : List Char) :
    ∀ t ∈ (piecesFrom position rest).1 :: (piecesFrom position rest).2,
      t.StandsIn position rest := by
  induction rest generalizing position with
  | nil =>
    intro t member
    cases List.mem_singleton.1 member
    exact ⟨[], [], rfl, rfl⟩
  | cons c rest ih =>
    intro t member
    obtain rfl | ⟨_, rfl⟩ | later := mem_piecesFrom_cons member
    · exact ⟨[], c :: rest, rfl, rfl⟩
    · exact (ih _ _ List.mem_cons_self).cons_text (start_piecesFrom _ rest)
    · exact (ih _ t later).cons

theorem pairwise_piecesFrom (position : Nat) (rest : List Char) :
    ((piecesFrom position rest).1 :: (piecesFrom position rest).2).Pairwise Token.Precedes := by
  induction rest generalizing position with
  | nil => exact List.pairwise_singleton _ _
  | cons c rest ih =>
    have later := ih (position + c.utf8Size)
    by_cases comma : c = ','
    · simp only [piecesFrom, if_pos comma]
      refine List.pairwise_cons.2 ⟨fun t member => ?_, later⟩
      have := (standsIn_of_mem_piecesFrom _ rest t member).le_start
      have := c.utf8Size_pos
      simp only [Token.Precedes, Token.stop, byteLength]
      omega
    · rw [piecesFrom_cons_of_ne comma]
      obtain ⟨ahead, others⟩ := List.pairwise_cons.1 later
      refine List.pairwise_cons.2 ⟨fun t member => ?_, others⟩
      have := ahead t member
      simp only [Token.Precedes, Token.stop, byteLength, start_piecesFrom] at this ⊢
      omega

end Pieces

namespace Token

theorem standsIn_of_mem_items {t item : Token} (h : item ∈ t.items) :
    item.StandsIn t.start t.text :=
  standsIn_of_mem_piecesFrom t.start t.text item h

theorem pairwise_items (t : Token) : t.items.Pairwise Precedes :=
  pairwise_piecesFrom t.start t.text

end Token

end Recurrence.Expression
