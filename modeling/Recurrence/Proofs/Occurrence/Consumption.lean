import Recurrence.Proofs.Occurrence.Sequence

/-!
# Consuming a sequence

What is left of a sequence is a list, and each query takes its answer from the front of it
(`Occurrences.Query.consume`): the answer is that of the list, and what is left afterwards is what
the list has left (`Occurrences.answer_eq_consume`). So all answers together are those of the list
(`Occurrences.answers_eq_consumeAll`), and once they show its end, nothing more comes
(`Occurrences.answers_after_end`). The list itself goes from each occurrence to the next one, cut off
behind a limit (`Occurrences.getElem?_remaining`, `Occurrences.remaining_occurrencesUpTo`).
-/

namespace Recurrence

/-- The occurrence that is reached from a moment after `k` others, going from each one to the
next. -/
def Rule.iterate? (r : Rule) (m : Moment) : Nat → Option Moment
  | 0 => r.nextAfter? m
  | k + 1 => (r.nextAfter? m).bind fun n => r.iterate? n k

namespace Occurrences

/-! ## Queries of a list -/

namespace Query

/-- Answers a query from the front of a list, and gives what is left of the list. -/
def consume : Query → List Moment → Answer × List Moment
  | next, ms => (.moment ms.head?, ms.tail)
  | nth k, ms => (.moment ms[k]?, ms.drop (k + 1))
  | take k, ms => (.moments (ms.take k), ms.drop k)
  | count, ms => (.number ms.length, [])
  | last, ms => (.moment ms.getLast?, [])

def consumeAll : List Query → List Moment → List Answer
  | [], _ => []
  | q :: qs, ms => (q.consume ms).1 :: consumeAll qs (q.consume ms).2

/-- Whether an answer to a query shows that the end was reached. -/
def ShowsEnd : Query → Answer → Prop
  | next, a | nth _, a => a = .moment none
  | take k, a => ∃ ms, a = .moments ms ∧ ms.length < k
  | count, _ | last, _ => True

/-- The answer to a query when nothing is left. -/
def emptyAnswer : Query → Answer
  | next | nth _ | last => .moment none
  | take _ => .moments []
  | count => .number 0

variable {q : Query} {ms : List Moment}

theorem consume_nil (q : Query) : q.consume [] = (q.emptyAnswer, []) := by
  cases q <;> simp [consume, emptyAnswer]

theorem consumeAll_nil (qs : List Query) : consumeAll qs [] = qs.map emptyAnswer := by
  induction qs with
  | nil => rfl
  | cons q qs ih => rw [consumeAll, consume_nil, ih, List.map_cons]

theorem consume_of_showsEnd (h : q.ShowsEnd (q.consume ms).1) : (q.consume ms).2 = [] := by
  cases q with
  | next =>
    have none : ms.head? = none := by simpa [ShowsEnd, consume] using h
    rw [consume, List.head?_eq_none_iff.1 none]
    rfl
  | nth k =>
    have none : ms[k]? = none := by simpa only [ShowsEnd, consume, Answer.moment.injEq] using h
    exact List.drop_eq_nil_of_le (Nat.le_succ_of_le (List.getElem?_eq_none_iff.1 none))
  | take k =>
    obtain ⟨taken, same, short⟩ := h
    cases same
    rw [List.length_take] at short
    exact List.drop_eq_nil_of_le (by omega)
  | count => rfl
  | last => rfl

end Query

/-! ## What is left of a sequence -/

section

variable {s : Occurrences} {m : Moment}

theorem remaining_of_head?_eq_some (h : s.head? = some m) :
    s.remaining = m :: (s.behind (some m)).remaining := by
  rw [remaining]
  split
  · rename_i n found
    rw [h] at found
    cases found
    rfl
  · rename_i none
    rw [h] at none
    cases none

theorem remaining_of_head?_eq_none (h : s.head? = none) : s.remaining = [] := by
  rw [remaining]
  split
  · rename_i n found
    rw [h] at found
    cases found
  · rfl

theorem remaining_behind_none (s : Occurrences) : (s.behind none).remaining = [] :=
  remaining_of_head?_eq_none rfl

/-! ## One query -/

theorem next_eq (s : Occurrences) :
    s.next.1 = s.remaining.head? ∧ s.next.2.remaining = s.remaining.tail := by
  cases h : s.head? with
  | none =>
    rw [next, h, remaining_of_head?_eq_none h]
    exact ⟨rfl, remaining_behind_none s⟩
  | some m =>
    rw [next, h, remaining_of_head?_eq_some h]
    exact ⟨rfl, rfl⟩

theorem nth_eq (s : Occurrences) (k : Nat) :
    (s.nth k).1 = s.remaining[k]? ∧ (s.nth k).2.remaining = s.remaining.drop (k + 1) := by
  induction k generalizing s with
  | zero =>
    rw [nth, ← List.head?_eq_getElem?, List.drop_one]
    exact s.next_eq
  | succ k ih =>
    cases h : s.head? with
    | none =>
      rw [nth, next, h, remaining_of_head?_eq_none h]
      exact ⟨rfl, remaining_behind_none s⟩
    | some m =>
      rw [nth, next, h, remaining_of_head?_eq_some h]
      exact ih (s.behind (some m))

theorem take_eq (s : Occurrences) (k : Nat) :
    (s.take k).1 = s.remaining.take k ∧ (s.take k).2.remaining = s.remaining.drop k := by
  induction k generalizing s with
  | zero => exact ⟨rfl, rfl⟩
  | succ k ih =>
    cases h : s.head? with
    | none =>
      rw [take, next, h, remaining_of_head?_eq_none h]
      exact ⟨rfl, remaining_behind_none s⟩
    | some m =>
      obtain ⟨taken, left⟩ := ih (s.behind (some m))
      rw [take, next, h, remaining_of_head?_eq_some h]
      exact ⟨congrArg (List.cons m) taken, left⟩

/-- A query is answered from the front of what is left of the sequence. -/
theorem answer_eq_consume (s : Occurrences) (q : Query) :
    (s.answer q).1 = (q.consume s.remaining).1 ∧
      (s.answer q).2.remaining = (q.consume s.remaining).2 := by
  cases q with
  | next => exact ⟨congrArg Answer.moment s.next_eq.1, s.next_eq.2⟩
  | nth k => exact ⟨congrArg Answer.moment (s.nth_eq k).1, (s.nth_eq k).2⟩
  | take k => exact ⟨congrArg Answer.moments (s.take_eq k).1, (s.take_eq k).2⟩
  | count => exact ⟨rfl, remaining_behind_none s⟩
  | last => exact ⟨rfl, remaining_behind_none s⟩

end

/-! ## Many queries -/

theorem answers_eq_consumeAll (s : Occurrences) (qs : List Query) :
    s.answers qs = Query.consumeAll qs s.remaining := by
  induction qs generalizing s with
  | nil => rfl
  | cons q qs ih =>
    obtain ⟨answer, left⟩ := s.answer_eq_consume q
    rw [Query.consumeAll, ← answer, ← left, ← ih]
    rfl

/-- Once an answer shows the end of a sequence, all later ones are those of an empty list. -/
theorem answers_after_end (s : Occurrences) (before after : List Query) {q : Query} {a : Answer}
    (h : (s.answers (before ++ q :: after))[before.length]? = some a) (ends : q.ShowsEnd a) :
    (s.answers (before ++ q :: after)).drop (before.length + 1) = after.map Query.emptyAnswer := by
  induction before generalizing s with
  | nil =>
    rw [answers_eq_consumeAll] at h ⊢
    cases h
    have none := Query.consume_of_showsEnd ends
    simp only [List.nil_append, Query.consumeAll, none, Query.consumeAll_nil, List.length_nil,
      Nat.zero_add, List.drop_one, List.tail_cons]
  | cons p before ih => exact ih (s.answer p).2 h

/-- What is asked of a sequence is answered from the front of a list; and once an answer shows its
end, nothing more comes. -/
structure Consumes (s : Occurrences) (ms : List Moment) : Prop where
  answers : ∀ qs, s.answers qs = Query.consumeAll qs ms
  ended : ∀ (before after : List Query) (q : Query) (a : Answer),
    (s.answers (before ++ q :: after))[before.length]? = some a → q.ShowsEnd a →
      (s.answers (before ++ q :: after)).drop (before.length + 1) = after.map Query.emptyAnswer

theorem consumes_remaining (s : Occurrences) : s.Consumes s.remaining where
  answers := s.answers_eq_consumeAll
  ended before after _ _ := s.answers_after_end before after

/-! ## Iterates -/

/-- Without a limit, each moment that is left is the next occurrence after the one before it. -/
theorem getElem?_remaining (r : Rule) (m : Moment) (k : Nat) :
    (r.occurrences m).remaining[k]? = r.iterate? m k := by
  induction k generalizing m with
  | zero =>
    rw [← List.head?_eq_getElem?, ← (next_eq _).1]
    exact head?_occurrences r m
  | succ k ih =>
    have first := head?_occurrences r m
    rw [Rule.iterate?]
    cases next : r.nextAfter? m with
    | none =>
      rw [next] at first
      rw [remaining_of_head?_eq_none first]
      rfl
    | some n =>
      rw [next] at first
      rw [remaining_of_head?_eq_some first, List.getElem?_cons_succ]
      exact ih n

/-- A limit cuts the list of occurrences off before the first one that is later. -/
theorem remaining_occurrencesUpTo (r : Rule) (m : Moment) (limit : Instant) :
    (r.occurrencesUpTo m limit).remaining =
      (r.occurrences m).remaining.takeWhile (·.instant ≤ limit) := by
  generalize same : r.occurrences m = s
  fun_induction remaining s generalizing m with
  | case1 s n found ih =>
    subst same
    rw [head?_occurrences] at found
    have first := head?_occurrencesUpTo r m limit
    rw [found] at first
    by_cases within : n.instant ≤ limit
    · rw [Option.filter_some, if_pos (decide_eq_true within)] at first
      rw [remaining_of_head?_eq_some first, List.takeWhile_cons_of_pos (by simpa using within)]
      exact congrArg (List.cons n) (ih n rfl)
    · rw [Option.filter_some, if_neg (by simpa using within)] at first
      rw [remaining_of_head?_eq_none first, List.takeWhile_cons_of_neg (by simpa using within)]
  | case2 s found =>
    subst same
    rw [head?_occurrences] at found
    have first := head?_occurrencesUpTo r m limit
    rw [found] at first
    exact remaining_of_head?_eq_none first

end Occurrences

/-- **A sequence is a list that is consumed from the front.** The occurrences after a moment, each
the next one after the one before it, are a list, which a limit cuts off before the first that is
later. Whatever is asked of the sequence, in whichever order, the list answers it from its front;
and the next `n` occurrences are the first `n` of the list. -/
theorem Rule.exists_consumes (r : Rule) (m : Moment) :
    ∃ ms : List Moment, (∀ k, ms[k]? = r.iterate? m k) ∧
      (r.occurrences m).Consumes ms ∧
      (∀ limit : Moment, (r.occurrencesUpTo m limit.instant).Consumes
        (ms.takeWhile (·.instant ≤ limit.instant))) ∧
      ∀ n, r.nextAfterN m n = ms.take n := by
  refine ⟨(r.occurrences m).remaining, Occurrences.getElem?_remaining r m,
    Occurrences.consumes_remaining _, fun limit => ?_, fun n => (Occurrences.take_eq _ n).1⟩
  rw [← Occurrences.remaining_occurrencesUpTo]
  exact Occurrences.consumes_remaining _

end Recurrence
