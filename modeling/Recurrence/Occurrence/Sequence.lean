import Recurrence.Occurrence.Search

/-!
# Sequences of occurrences

The occurrences of a rule after a moment form a sequence that is consumed from the front, with or
without a limit. Once its end has been reached it stays empty, whatever is asked. What is left of a
sequence is always a finite list (`Occurrences.remaining`): its moments ascend and the range of
instants is bounded.
-/

namespace Recurrence

/-- The occurrences of a rule that are still to come. -/
structure Occurrences where
  rule : Rule
  /-- The moment after which the next occurrence is looked for; none when the end has been
  reached. -/
  position : Option Moment
  /-- The last instant that may still occur. -/
  limit : Option Instant
deriving DecidableEq, Repr

/-- The occurrences of a rule after a moment. -/
def Rule.occurrences (r : Rule) (start : Moment) : Occurrences :=
  ⟨r, some start, none⟩

/-- The occurrences of a rule after a moment and up to an instant, which is included. -/
def Rule.occurrencesUpTo (r : Rule) (start : Moment) (limit : Instant) : Occurrences :=
  ⟨r, some start, some limit⟩

namespace Occurrences

/-- Whether the limit lets a moment through. -/
def admits (s : Occurrences) (m : Moment) : Bool :=
  s.limit.all (m.instant ≤ ·)

def head? (s : Occurrences) : Option Moment :=
  (s.position.bind s.rule.nextAfter?).filter s.admits

/-- The sequence that looks behind a moment, or that has ended. -/
def behind (s : Occurrences) (position : Option Moment) : Occurrences :=
  { s with position := position }

/-- The next occurrence, and the sequence without it. -/
def next (s : Occurrences) : Option Moment × Occurrences :=
  (s.head?, s.behind s.head?)

/-- Drops `k` occurrences and takes the next one, stopping at the end. -/
def nth (s : Occurrences) : Nat → Option Moment × Occurrences
  | 0 => s.next
  | k + 1 =>
    match s.next with
    | (some _, rest) => rest.nth k
    | (none, rest) => (none, rest)

/-- Takes the next `k` occurrences, fewer at the end. -/
def take (s : Occurrences) : Nat → List Moment × Occurrences
  | 0 => ([], s)
  | k + 1 =>
    match s.next with
    | (some m, rest) =>
      let (ms, rest) := rest.take k
      (m :: ms, rest)
    | (none, rest) => ([], rest)

/-- An upper bound for the nanoseconds that a sequence can still run through. -/
def room (s : Occurrences) : Nat :=
  match s.position with
  | some m => (Instant.lastSecond * Instant.perSecond - m.instant.nanoseconds).toNat + 1
  | none => 0

theorem room_behind_head {s : Occurrences} {m : Moment} (h : s.head? = some m) :
    (s.behind (some m)).room < s.room := by
  unfold head? at h
  obtain ⟨hnext, _⟩ := Option.filter_eq_some_iff.1 h
  obtain ⟨p, hp, hm⟩ := Option.bind_eq_some_iff.1 hnext
  obtain ⟨t, ht, rfl⟩ := Option.map_eq_some_iff.1 hm
  obtain ⟨later, bounded⟩ := Rule.bounds_of_nextInstant? ht
  have later : p.instant.nanoseconds < t.nanoseconds := later
  have bounded : t.nanoseconds ≤ Instant.lastSecond * Instant.perSecond := bounded
  simp only [room, behind, hp]
  omega

/-- All occurrences that are left. -/
def remaining (s : Occurrences) : List Moment :=
  match _h : s.head? with
  | some m => m :: (s.behind (some m)).remaining
  | none => []
termination_by s.room
decreasing_by exact room_behind_head ‹_›

/-! ## Queries -/

/-- What can be asked of a sequence. -/
inductive Query
  | next
  /-- The occurrence behind the next `k`. -/
  | nth (k : Nat)
  /-- The next `k` occurrences. -/
  | take (k : Nat)
  | count
  | last
deriving DecidableEq, Repr

/-- The answer to a query. -/
inductive Answer
  | moment (m : Option Moment)
  | moments (ms : List Moment)
  | number (n : Nat)
deriving DecidableEq, Repr

/-- Answers a query, and gives what the sequence is after it. -/
def answer (s : Occurrences) : Query → Answer × Occurrences
  | .next => s.next.map .moment id
  | .nth k => (s.nth k).map .moment id
  | .take k => (s.take k).map .moments id
  | .count => (.number s.remaining.length, s.behind none)
  | .last => (.moment s.remaining.getLast?, s.behind none)

def answers (s : Occurrences) : List Query → List Answer
  | [] => []
  | q :: qs =>
    let (a, rest) := s.answer q
    a :: rest.answers qs

end Occurrences

/-- The next `n` occurrences of a rule after a moment. -/
def Rule.nextAfterN (r : Rule) (m : Moment) (n : Nat) : List Moment :=
  ((r.occurrences m).take n).1

end Recurrence
