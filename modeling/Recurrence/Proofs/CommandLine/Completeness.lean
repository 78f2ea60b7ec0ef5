import Recurrence.Proofs.CommandLine.Listing
import Recurrence.Proofs.Occurrence.Consumption

/-!
# Complete listings

A listing with a limit is to show all occurrences up to it, or as many of the first ones as it is
asked for. No more than `mostListed` are ever shown, and the answer warns of that where it is asked
for more. Where no number is given it does not: what is left out then goes unsaid
(`BoundedCommand.not_showsOrWarns`), and only then (`BoundedCommand.showsOrWarns_iff`). How many
moments are shown can be told from the text, in either form (`length_eq_of_shown`).
-/

namespace Recurrence

namespace Rule

variable {r : Rule} {m : Moment} {limit : Instant}

/-- A list holds just the occurrences after a moment and up to an instant, in ascending order. -/
structure Exhausts (r : Rule) (m : Moment) (limit : Instant) (ms : List Moment) : Prop where
  ascending : ms.Pairwise (·.instant < ·.instant)
  mem_iff : ∀ x : Moment, x ∈ ms ↔
    x.zone = m.zone ∧ x.instant.IsWhole ∧ m.instant < x.instant ∧ x.instant ≤ limit ∧
      r.isMetBy x = true

theorem exhausts_remaining (hr : r.IsWellFormed) (hm : m.IsWritable) (hlimit : limit.InRange) :
    r.Exhausts m limit (r.occurrencesUpTo m limit).remaining where
  ascending := (List.pairwise_cons.1 (Occurrences.isRun_remaining r m limit).1.ascending).2
  mem_iff x := by
    obtain ⟨after, zone⟩ := m
    obtain ⟨offset, fits, fixed⟩ := hm.zone
    cases fixed
    exact mem_remaining_iff hr fits.bounds hm.inRange hlimit

end Rule

namespace CommandLine

/-! ## What a text tells -/

theorem count_write {c : Char} (h : Moment.isPlain c = false) (m : Moment) :
    m.write.count c = 0 := by
  apply List.count_eq_zero.2
  intro member
  have plain := List.all_eq_true.1 m.all_isPlain_write c member
  rw [h] at plain
  cases plain

theorem count_asLines (ms : List Moment) : (asLines (ms.map lineOf)).count '\n' = ms.length := by
  have each (m : Moment) : (line (lineOf m).toList).count '\n' = 1 := by
    rw [line, toList_lineOf, List.count_append, count_write (by decide) m]
    rfl
  induction ms with
  | nil => rfl
  | cons m ms ih =>
    rw [asLines, List.map_cons, List.flatMap_cons, List.count_append, ← asLines, each, ih,
      List.length_cons, Nat.add_comm]

theorem count_intercalate (ms : List Moment) :
    (List.intercalate [','] ((ms.map lineOf).map fun l => quoted l.toList)).count '"' =
      2 * ms.length := by
  have each (m : Moment) : (quoted (lineOf m).toList).count '"' = 2 := by
    rw [quoted, toList_lineOf, List.cons_append, List.count_cons_self, List.count_append,
      count_write (by decide) m]
    rfl
  have separator : [','].count '"' = 0 := by decide
  induction ms with
  | nil => rfl
  | cons m ms ih =>
    cases ms with
    | nil => simpa using each m
    | cons n ms =>
      simp only [List.map_cons, List.intercalate_cons_cons, List.count_append, each,
        separator] at ih ⊢
      rw [ih]
      simp only [List.length_cons]
      omega

theorem count_asArray (ms : List Moment) :
    (asArray (ms.map lineOf)).count '"' = 2 * ms.length := by
  have opening : ['['].count '"' = 0 := by decide
  have closing : [']'].count '"' = 0 := by decide
  have ending : ['\n'].count '"' = 0 := by decide
  cases ms with
  | nil => rfl
  | cons m ms =>
    have inner := count_intercalate (m :: ms)
    rw [List.map_cons] at inner ⊢
    simp only [asArray, line, List.count_append, inner, opening, closing, ending]
    omega

/-- A listing shows how many moments it has. -/
theorem length_eq_of_shown {json : Bool} {ms ns : List Moment}
    (h : (if json then asArray else asLines) (ms.map lineOf) =
      (if json then asArray else asLines) (ns.map lineOf)) : ms.length = ns.length := by
  cases json with
  | false =>
    have same : (asLines (ms.map lineOf)).count '\n' = (asLines (ns.map lineOf)).count '\n' :=
      congrArg (List.count '\n') h
    rwa [count_asLines, count_asLines] at same
  | true =>
    have same : (asArray (ms.map lineOf)).count '"' = (asArray (ns.map lineOf)).count '"' :=
      congrArg (List.count '"') h
    rw [count_asArray, count_asArray] at same
    omega

/-! ## Answers to a listing -/

/-- The occurrences that are asked for out of all there are: the first ones, if a number is
given. -/
def Request.select (r : Request) (all : List Moment) : List Moment :=
  match r.count with
  | some n => all.take n
  | none => all

/-- The line that warns that not all occurrences are shown. -/
def warning : String := s!"warning: capped at {mostListed} occurrences\n"

namespace Response

/-- An answer puts out some moments, and no others. -/
def Shows (response : Response) (json : Bool) (ms : List Moment) : Prop :=
  response.output = String.ofList ((if json then asArray else asLines) (ms.map lineOf))

/-- An answer warns that not all occurrences are shown. -/
def Warns (response : Response) : Prop :=
  ∃ before after, response.remarks = before ++ warning ++ after

/-- An answer shows the occurrences that are asked for out of all there are, or it warns. -/
def ShowsOrWarns (response : Response) (r : Request) (all : List Moment) : Prop :=
  response.Shows r.json (r.select all) ∨ response.Warns

theorem list_remarks (r : Request) (rule : Rule) (start : Moment) (limit : Option Moment) :
    (list r rule start limit).remarks =
      (if mostListed < r.wanted then warning else "") ++
        if occurrencesListed rule start limit (min r.wanted mostListed) = [] then
          "no upcoming occurrences\n" else "" := by
  unfold list
  cases occurrencesListed rule start limit (min r.wanted mostListed) with
  | nil => rfl
  | cons m ms => exact String.append_empty.symm

end Response

/-- What a command line asks for that lists the occurrences of a rule between two moments, in
whichever form and however many. The moments are such as `Moment.read?` reads, in UTC or at a fixed
offset of whole minutes. -/
structure BoundedCommand where
  request : Request
  rule : Rule
  start : Moment
  limit : Moment
  accepted : ∃ text, request.expression = some text ∧
    Expression.read request.options text = .ok rule
  started : ∃ text, request.start = some text ∧ Moment.read? text.toList = some start
  limited : ∃ text, request.limit = some text ∧ Moment.read? text.toList = some limit
  unchecked : request.check = false
  unnormalized : request.normalize = false

namespace BoundedCommand

/-- All occurrences between the moments of a command. -/
def occurrences (c : BoundedCommand) : List Moment :=
  (c.rule.occurrencesUpTo c.start c.limit.instant).remaining

/-- The answer to a command. -/
def response (c : BoundedCommand) : Response :=
  .list c.request c.rule c.start (some c.limit)

variable {c : BoundedCommand}

theorem exhausts_occurrences (c : BoundedCommand) :
    c.rule.Exhausts c.start c.limit.instant c.occurrences := by
  obtain ⟨text, _, accepted⟩ := c.accepted
  obtain ⟨_, _, started⟩ := c.started
  obtain ⟨_, _, limited⟩ := c.limited
  have constructible : c.rule.IsConstructible := .inr ⟨c.request.options, text, accepted⟩
  exact Rule.exhausts_remaining constructible.isWellFormed (Moment.isWritable_of_read? started)
    (Moment.isWritable_of_read? limited).inRange

theorem ofArguments_eq {arguments : List String}
    (h : Request.ofArguments arguments = .ok c.request) (now : Moment) :
    Response.ofArguments now arguments = c.response := by
  obtain ⟨startText, given, start⟩ := c.started
  obtain ⟨limitText, given', limit⟩ := c.limited
  have started : Response.readMoment "from" c.request.start = .ok (some c.start) :=
    given ▸ Response.readMoment_eq_ok start
  have ended : Response.readMoment "to" c.request.limit = .ok (some c.limit) :=
    given' ▸ Response.readMoment_eq_ok limit
  exact Response.ofArguments_eq_list h c.accepted c.unchecked c.unnormalized started ended now

theorem listed_eq (c : BoundedCommand) (n : Nat) :
    occurrencesListed c.rule c.start (some c.limit) n = c.occurrences.take n :=
  (Occurrences.take_eq _ n).1

theorem shows (c : BoundedCommand) :
    c.response.Shows c.request.json (c.occurrences.take (min c.request.wanted mostListed)) := by
  have output := (Response.list_output c.request c.rule c.start (some c.limit)).2
  rwa [c.listed_eq] at output

theorem wanted_of_count_eq_none (h : c.request.count = none) : c.request.wanted = mostListed := by
  obtain ⟨text, limit, _⟩ := c.limited
  rw [Request.wanted, h, limit]
  rfl

/-- Nothing goes unsaid where a number is given, or where all occurrences can be shown. -/
theorem showsOrWarns (h : c.request.count.isSome = true ∨ c.occurrences.length ≤ mostListed) :
    c.response.ShowsOrWarns c.request c.occurrences := by
  have shown := c.shows
  unfold Response.ShowsOrWarns Request.select
  cases count : c.request.count with
  | none =>
    have few : c.occurrences.length ≤ mostListed := by
      rw [count] at h
      exact h.resolve_left Bool.false_ne_true
    rw [wanted_of_count_eq_none count, Nat.min_self, List.take_of_length_le few] at shown
    exact .inl shown
  | some n =>
    have wanted : c.request.wanted = n := by rw [Request.wanted, count, Option.getD_some]
    by_cases many : mostListed < n
    · right
      rw [Response.Warns, response, Response.list_remarks, wanted, if_pos many]
      exact ⟨"", _, congrArg (· ++ _) String.empty_append.symm⟩
    · rw [wanted, Nat.min_eq_left (Nat.not_lt.1 many)] at shown
      exact .inl shown

section

variable (unsaid : c.request.count = none) (many : mostListed < c.occurrences.length)
include unsaid many

theorem not_shows_select : ¬c.response.Shows c.request.json (c.request.select c.occurrences) := by
  intro shown
  have all : c.request.select c.occurrences = c.occurrences := by rw [Request.select, unsaid]
  have cut := c.shows
  rw [wanted_of_count_eq_none unsaid, Nat.min_self] at cut
  rw [all] at shown
  have same := length_eq_of_shown (String.ofList_injective (cut.symm.trans shown))
  rw [List.length_take_of_le (Nat.le_of_lt many)] at same
  omega

theorem not_warns : ¬c.response.Warns := by
  intro warns
  have listed : c.occurrences.take mostListed ≠ [] := by
    apply List.ne_nil_of_length_pos
    rw [List.length_take_of_le (Nat.le_of_lt many)]
    decide
  have remarks : c.response.remarks = "" := by
    rw [response, Response.list_remarks, c.listed_eq, wanted_of_count_eq_none unsaid, Nat.min_self,
      if_neg (Nat.lt_irrefl _), if_neg listed, String.empty_append]
  obtain ⟨before, after, warned⟩ := warns
  rw [remarks] at warned
  have empty := (String.append_eq_empty_iff.1 warned.symm).1
  exact absurd (String.append_eq_empty_iff.1 empty).2 (by decide)

/-- Where no number is given and not all occurrences can be shown, some are left out without a
word. -/
theorem not_showsOrWarns : ¬c.response.ShowsOrWarns c.request c.occurrences := by
  intro said
  cases said with
  | inl shown => exact not_shows_select unsaid many shown
  | inr warns => exact not_warns unsaid many warns

end

/-- **What a listing leaves out goes unsaid just where no number is given.** Between two moments
in UTC or at fixed offsets there is a list of all occurrences after the start and up to the limit.
The answer shows them, or the first ones of them if a number is given, or else it warns that not all
are shown, unless no number is given and there are more than can be shown. -/
theorem showsOrWarns_iff (c : BoundedCommand) {arguments : List String}
    (h : Request.ofArguments arguments = .ok c.request) :
    ∃ all, c.rule.Exhausts c.start c.limit.instant all ∧
      ∀ now, (Response.ofArguments now arguments).ShowsOrWarns c.request all ↔
        c.request.count.isSome = true ∨ all.length ≤ mostListed := by
  refine ⟨c.occurrences, c.exhausts_occurrences, fun now => ?_⟩
  rw [ofArguments_eq h]
  constructor
  · intro said
    cases count : c.request.count with
    | none => exact .inr (Nat.not_lt.1 fun many => not_showsOrWarns count many said)
    | some n => exact .inl rfl
  · exact showsOrWarns

/-- Arguments that ask for each second of the first thousand and one. -/
def secondsArguments : List String :=
  ["* * * * * *", "--from", "1970-01-01T00:00:00Z", "--to", "1970-01-01T00:16:41Z"]

/-- Each second of the first thousand and one, or some of them. -/
def seconds (count : Option Nat) : BoundedCommand where
  request :=
    { expression := some "* * * * * *"
      count := count
      start := some "1970-01-01T00:00:00Z"
      limit := some "1970-01-01T00:16:41Z" }
  rule := ⟨0xfff, 0x7fffffff, 0, 0, 0, 0xffffff, 0xfffffffffffffff, 0xfffffffffffffff⟩
  start := ⟨.ofSeconds 0, .utc⟩
  limit := ⟨.ofSeconds 1001, .utc⟩
  accepted := ⟨_, rfl, rfl⟩
  started := ⟨_, rfl, by decide +kernel⟩
  limited := ⟨_, rfl, by decide +kernel⟩
  unchecked := rfl
  unnormalized := rfl

/-- Asked for a thousand and one seconds, the answer shows them or warns. -/
theorem showsOrWarns_seconds :
    Request.ofArguments (secondsArguments ++ ["-n", "1001"]) = .ok (seconds (some 1001)).request ∧
      ∃ all, (seconds (some 1001)).rule.Exhausts ⟨.ofSeconds 0, .utc⟩ (.ofSeconds 1001) all ∧
        ∀ now, (Response.ofArguments now (secondsArguments ++ ["-n", "1001"])).ShowsOrWarns
          (seconds (some 1001)).request all := by
  have read : Request.ofArguments (secondsArguments ++ ["-n", "1001"]) =
      .ok (seconds (some 1001)).request := by decide +kernel
  obtain ⟨all, exhausts, said⟩ := showsOrWarns_iff (seconds (some 1001)) read
  exact ⟨read, all, exhausts, fun now => (said now).2 (.inl rfl)⟩

/-- Each second of the first day is an occurrence. -/
theorem isMetBy_seconds {second : Nat} (h : second < 86400) :
    (seconds none).rule.isMetBy ⟨.ofSeconds second, .utc⟩ = true := by
  have hours : ∀ v < 24, (seconds none).rule.hours.getLsbD v = true := by decide
  have minutes : ∀ v < 60, (seconds none).rule.minutes.getLsbD v = true := by decide
  have sixtieths : ∀ v < 60, (seconds none).rule.admitsSecond v = true := by decide
  have shown : Moment.wallClock ⟨.ofSeconds second, .utc⟩ = ⟨second⟩ :=
    congrArg WallClock.mk ((Int.add_zero _).trans (Instant.seconds_ofSeconds second))
  have date : WallClock.date ⟨second⟩ = .ofDayNumber 0 := by
    have first : (second : Int) / 86400 = 0 := by omega
    exact congrArg Date.ofDayNumber first
  rw [Rule.isMetBy, shown, Rule.admits_iff, date]
  exact ⟨by decide, by decide, hours _ (WallClock.hour_lt _), minutes _ (WallClock.minute_lt _),
    sixtieths _ (WallClock.second_lt _)⟩

/-- The first thousand and one seconds. -/
def firstSeconds : List Moment :=
  (List.range 1001).map fun k => ⟨.ofSeconds (k + 1 : Nat), .utc⟩

theorem nodup_firstSeconds : firstSeconds.Nodup := by
  refine List.Pairwise.map _ (fun k l other same => other ?_) List.nodup_range
  have seconds := congrArg (·.instant.seconds) same
  simp only [Instant.seconds_ofSeconds] at seconds
  omega

theorem firstSeconds_subset : firstSeconds ⊆ (seconds none).occurrences := by
  intro x member
  obtain ⟨k, inside, rfl⟩ := List.mem_map.1 member
  have small : k < 1001 := List.mem_range.1 inside
  have whole := Instant.isWhole_ofSeconds (k + 1 : Nat)
  refine ((exhausts_occurrences _).mem_iff _).2 ⟨rfl, whole, ?_, ?_, isMetBy_seconds (by omega)⟩
  · rw [Instant.lt_iff_seconds_lt whole, Instant.seconds_ofSeconds]
    exact Int.ofNat_lt.2 (Nat.succ_pos k)
  · rw [Instant.le_iff_seconds_le whole (by decide), Instant.seconds_ofSeconds]
    exact Int.ofNat_le.2 small

theorem mostListed_lt_length_seconds : mostListed < (seconds none).occurrences.length := by
  have length := nodup_firstSeconds.length_le_of_subset firstSeconds_subset
  rwa [firstSeconds, List.length_map, List.length_range] at length

/-- Asked for all of them, it does neither: the last one is left out. -/
theorem not_showsOrWarns_seconds :
    Request.ofArguments secondsArguments = .ok (seconds none).request ∧
      ∃ all, (seconds none).rule.Exhausts ⟨.ofSeconds 0, .utc⟩ (.ofSeconds 1001) all ∧
        mostListed < all.length ∧
          ∀ now, ¬(Response.ofArguments now secondsArguments).ShowsOrWarns
            (seconds none).request all := by
  have read : Request.ofArguments secondsArguments = .ok (seconds none).request := by
    decide +kernel
  refine ⟨read, (seconds none).occurrences, exhausts_occurrences _,
    mostListed_lt_length_seconds, fun now => ?_⟩
  rw [ofArguments_eq read]
  exact not_showsOrWarns rfl mostListed_lt_length_seconds

end BoundedCommand

end CommandLine

end Recurrence
