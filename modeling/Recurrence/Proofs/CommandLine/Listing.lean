import Recurrence.CommandLine.Response
import Recurrence.Proofs.CommandLine.Arguments
import Recurrence.Proofs.Moment.Text
import Recurrence.Proofs.Occurrence.Sequence

/-!
# Listings in a row

A command line that lists occurrences prints each as a line, and a printed line can be given back as
the start of another listing (`Rule.IsRun.isWritable`, `Moment.read?_write`). So listings go on
where others ended (`CommandLine.Command.exists_lists`).
-/

namespace Recurrence

namespace Rule

variable {r : Rule} {m n : Moment} {ns : List Moment}

/-- The moments of a run can be written if it sets out from one that can. -/
theorem IsRun.isWritable (h : r.IsRun m ns) (hr : r.IsWellFormed) (hm : m.IsWritable) :
    ∀ n ∈ ns, n.IsWritable := by
  intro n member
  have occurs := h.occursAt hr hm.isRegular n member
  have zone := h.zone_eq n member
  have later : m.instant < n.instant := (List.pairwise_cons.1 h.ascending).1 n member
  obtain ⟨offset, fits, fixed⟩ := hm.zone
  refine ⟨⟨offset, fits, zone.trans fixed⟩, occurs.whole, occurs.inRange, ?_⟩
  have ahead : m.wallClock ≤ n.wallClock := by
    rw [Moment.wallClock, Moment.wallClock, zone, fixed]
    exact Int.add_le_add_right (Instant.seconds_le_of_lt later) offset
  exact Int.le_trans hm.year (Date.year_mono (WallClock.dayNumber_mono ahead))

theorem nextAfterN_of_nextAfter?_eq_none (h : r.nextAfter? m = none) (k : Nat) :
    r.nextAfterN m k = [] := by
  cases k with
  | zero => rfl
  | succ k => rw [Occurrences.nextAfterN_succ, h]

theorem nextAfterN_one (h : r.nextAfter? m = some n) : r.nextAfterN m 1 = [n] := by
  rw [Occurrences.nextAfterN_succ, h]
  rfl

end Rule

namespace CommandLine

/-! ## One listing -/

/-- Lines, one after another. -/
def asLines (lines : List String) : List Char :=
  lines.flatMap fun l => line l.toList

/-- Lines as one array of strings, if there are any. -/
def asArray : List String → List Char
  | [] => []
  | lines => line (['['] ++ List.intercalate [','] (lines.map fun l => quoted l.toList) ++ [']'])

/-- A moment as the line that is printed for it. -/
def lineOf (m : Moment) : String := String.ofList m.write

theorem toList_lineOf (m : Moment) : (lineOf m).toList = m.write :=
  String.toList_ofList

theorem asLines_lineOf (moments : List Moment) :
    asLines (moments.map lineOf) = listing false moments := by
  simp only [asLines, listing, List.flatMap_def, List.map_map, Function.comp_def, toList_lineOf,
    Bool.false_eq_true, if_false]

theorem asArray_lineOf {moments : List Moment} (h : moments ≠ []) :
    asArray (moments.map lineOf) = listing true moments := by
  cases moments with
  | nil => exact absurd rfl h
  | cons m moments =>
    simp only [asArray, listing, List.map_cons, List.map_map, Function.comp_def, toList_lineOf,
      if_true]

/-- The answer to a listing has the moments that are listed as its lines. -/
theorem Response.list_output (r : Request) (rule : Rule) (start : Moment) (limit : Option Moment) :
    (list r rule start limit).code = 0 ∧
      (list r rule start limit).output = String.ofList
        ((if r.json then asArray else asLines)
          ((occurrencesListed rule start limit (min r.wanted mostListed)).map lineOf)) := by
  unfold list
  cases occurrencesListed rule start limit (min r.wanted mostListed) with
  | nil => cases r.json <;> exact ⟨rfl, rfl⟩
  | cons m moments =>
    refine ⟨rfl, congrArg String.ofList ?_⟩
    cases r.json with
    | false => exact (asLines_lineOf _).symm
    | true => exact (asArray_lineOf (List.cons_ne_nil _ _)).symm

theorem Response.readMoment_eq_ok {name text : String} {m : Moment}
    (h : Moment.read? text.toList = some m) : readMoment name (some text) = .ok (some m) := by
  rw [readMoment, h]

/-- Whatever arguments ask for a listing, and whenever they do, the listing is their answer. -/
theorem Response.ofArguments_eq_list {arguments : List String} {r : Request} {rule : Rule}
    {start limit : Option Moment} (asks : Request.ofArguments arguments = .ok r)
    (accepted : ∃ text, r.expression = some text ∧ Expression.read r.options text = .ok rule)
    (unchecked : r.check = false) (unnormalized : r.normalize = false)
    (started : readMoment "from" r.start = .ok start)
    (ended : readMoment "to" r.limit = .ok limit) (now : Moment) :
    ofArguments now arguments = list r rule (start.getD now) limit := by
  obtain ⟨text, expression, accepted⟩ := accepted
  simp only [ofArguments, asks, ofRequest, expression, accepted, unchecked, unnormalized,
    Bool.false_eq_true, if_false, listBetween, started, ended]

/-! ## Command lines -/

/-- What a command line asks for that lists the occurrences of a rule without a limit, whatever is
said of the listing. -/
structure Command where
  request : Request
  rule : Rule
  accepted : ∃ text, request.expression = some text ∧
    Expression.read request.options text = .ok rule
  isOpen : request.IsOpen
  unlimited : request.limit = none
  unchecked : request.check = false
  unnormalized : request.normalize = false

namespace Command

/-- A command takes an expression in some form. -/
structure IsFor (c : Command) (o : Expression.Options) (text : String) : Prop where
  options : c.request.options = o
  expression : c.request.expression = some text

/-- The arguments of a command in two halves between which something can be said of the listing: no
setting waits for its value there, and not all that follows is taken as it is. -/
structure Splits (c : Command) (front back : List String) : Prop where
  separate : "--" ∉ front
  complete : ∃ before, Request.ofArguments front = .ok before
  read : Request.ofArguments (front ++ back) = .ok c.request

/-- Some arguments ask for a listing, in whichever order and spelling. -/
def Asks (c : Command) (l : Listing) (arguments : List String) : Prop :=
  Request.ofArguments arguments = .ok (c.request.listing l)

/-- A listing can be asked for among the arguments of the command, and whatever arguments ask for
it, and whenever they do, the answer ends well and puts out some text. -/
structure Prints (c : Command) (l : Listing) (text : List Char) : Prop where
  asks : ∀ front back, c.Splits front back → c.Asks l (front ++ l.arguments ++ back)
  answer : ∀ arguments, c.Asks l arguments → ∀ now,
    (Response.ofArguments now arguments).code = 0 ∧
      (Response.ofArguments now arguments).output = String.ofList text

/-- Some lines are the listing of up to `n` occurrences, and other listings go on behind each of
them. No character of a line means anything to either form of the listing. -/
structure Lists (c : Command) (n : Nat) (start : String) (lines : List String) : Prop where
  length_le : lines.length ≤ n
  plain : ∀ l ∈ lines, l.toList.all Moment.isPlain = true
  printed : c.Prints ⟨false, n, start⟩ (asLines lines)
  array : c.Prints ⟨true, n, start⟩ (asArray lines)
  next : ∀ (i : Nat) (l l' : String), lines[i]? = some l → lines[i + 1]? = some l' →
    c.Prints ⟨false, 1, l⟩ (line l'.toList)
  ended : ∀ l, lines.getLast? = some l → lines.length < n →
    ∀ k ≤ Setting.largestCount, c.Prints ⟨false, k, l⟩ []

variable {c : Command} {m : Moment} {l : Listing} {o : Expression.Options} {text start : String}
  {r : Rule} {n : Nat}

theorem isWellFormed (c : Command) : c.rule.IsWellFormed := by
  obtain ⟨text, _, accepted⟩ := c.accepted
  exact Rule.IsConstructible.isWellFormed (.inr ⟨c.request.options, text, accepted⟩)

theorem IsFor.rule_eq (h : c.IsFor o text) (accepted : Expression.read o text = .ok r) :
    c.rule = r := by
  obtain ⟨_, given, accepted'⟩ := c.accepted
  cases h.expression.symm.trans given
  rw [h.options, accepted] at accepted'
  exact (Except.ok.inj accepted').symm

/-- The arguments that choose a form of expressions. -/
def formArguments (o : Expression.Options) : List String :=
  ["--seconds", o.seconds.name] ++ (if o.weekdayOptional then ["--weekday-optional"] else []) ++
    (if o.presets then [] else ["--no-presets"])

/-- What asks for the occurrences of an expression of some form. -/
def requestOf (o : Expression.Options) (text : String) : Request where
  expression := some text
  seconds := some o.seconds
  weekdayOptional := o.weekdayOptional
  noPresets := !o.presets

theorem ofArguments_formArguments (o : Expression.Options) (text : String) :
    "--" ∉ formArguments o ∧ (∃ before, Request.ofArguments (formArguments o) = .ok before) ∧
      Request.ofArguments (formArguments o ++ ["--", text]) = .ok (requestOf o text) := by
  obtain ⟨seconds, weekdayOptional, presets⟩ := o
  cases seconds <;> cases weekdayOptional <;> cases presets <;>
    exact ⟨by decide, ⟨_, rfl⟩, rfl⟩

/-- Each expression that is accepted in some form has a command line. -/
theorem exists_isFor (accepted : Expression.read o text = .ok r) :
    ∃ c : Command, c.IsFor o text ∧ c.Splits (formArguments o) ["--", text] := by
  have same : (requestOf o text).options = o := by
    rw [Request.options, requestOf, Bool.not_not]
    rfl
  obtain ⟨separate, complete, read⟩ := ofArguments_formArguments o text
  exact ⟨⟨requestOf o text, r, ⟨text, rfl, same.symm ▸ accepted⟩, ⟨rfl, rfl, rfl⟩, rfl, rfl, rfl⟩,
    ⟨same, rfl⟩, ⟨separate, complete, read⟩⟩

/-- A listing puts out the next occurrences after its start. -/
theorem prints_nextAfterN (small : l.count ≤ Setting.largestCount)
    (start : Moment.read? l.start.toList = some m) :
    c.Prints l ((if l.json then asArray else asLines)
      ((c.rule.nextAfterN m (min l.count mostListed)).map lineOf)) where
  asks front back splits := by
    obtain ⟨before, complete⟩ := splits.complete
    obtain ⟨first, head, digit⟩ := Moment.head?_of_read? start
    exact Request.ofArguments_listing splits.separate complete splits.read c.isOpen small
      (looksLikeName_of_isDigit head digit)
  answer arguments asks now := by
    have started : Response.readMoment "from" (c.request.listing l).start = .ok (some m) :=
      Response.readMoment_eq_ok start
    have unlimited : (c.request.listing l).limit = none := c.unlimited
    have ended : Response.readMoment "to" (c.request.listing l).limit = .ok none := by
      rw [unlimited]
      rfl
    rw [Response.ofArguments_eq_list asks c.accepted c.unchecked c.unnormalized started ended]
    exact Response.list_output (c.request.listing l) c.rule m none

section

variable (writable : m.IsWritable)
include writable

/-- A printed line stands for its moment as the start of another listing. -/
theorem prints_lineOf (c : Command) {k : Nat} (small : k ≤ Setting.largestCount) :
    c.Prints ⟨false, k, lineOf m⟩
      (asLines ((c.rule.nextAfterN m (min k mostListed)).map lineOf)) := by
  apply prints_nextAfterN small
  rw [toList_lineOf]
  exact Moment.read?_write writable

theorem prints_next {n : Moment} (next : c.rule.nextAfter? m = some n) :
    c.Prints ⟨false, 1, lineOf m⟩ (line (lineOf n).toList) := by
  have prints := prints_lineOf writable c (k := 1) (by decide)
  have one : c.rule.nextAfterN m (min 1 mostListed) = [n] := Rule.nextAfterN_one next
  rw [one] at prints
  simpa [asLines] using prints

theorem prints_nothing (none : c.rule.nextAfter? m = none) {k : Nat}
    (small : k ≤ Setting.largestCount) : c.Prints ⟨false, k, lineOf m⟩ [] := by
  have prints := prints_lineOf writable c small
  rw [Rule.nextAfterN_of_nextAfter?_eq_none none] at prints
  exact prints

end

/-- The listing after a moment has the lines of the next occurrences. -/
theorem lists_nextAfterN (c : Command) (valid : Moment.read? start.toList = some m)
    (small : n ≤ mostListed) : c.Lists n start ((c.rule.nextAfterN m n).map lineOf) := by
  obtain ⟨run, length, ended⟩ := Occurrences.isRun_take c.rule m n
  have writable := run.isWritable c.isWellFormed (Moment.isWritable_of_read? valid)
  have count : n ≤ Setting.largestCount := Nat.le_trans small (by decide)
  have all : c.rule.nextAfterN m (min n mostListed) = c.rule.nextAfterN m n := by
    rw [Nat.min_eq_left small]
  constructor
  case length_le => rwa [List.length_map]
  case plain =>
    intro l member
    obtain ⟨x, _, rfl⟩ := List.mem_map.1 member
    rw [toList_lineOf]
    exact Moment.all_isPlain_write x
  case printed =>
    rw [← all]
    exact prints_nextAfterN count valid
  case array =>
    rw [← all]
    exact prints_nextAfterN count valid
  case next =>
    intro i l l' first second
    rw [List.getElem?_map] at first second
    obtain ⟨x, hx, rfl⟩ := Option.map_eq_some_iff.1 first
    obtain ⟨y, hy, rfl⟩ := Option.map_eq_some_iff.1 second
    exact prints_next (writable x (List.mem_of_getElem? hx)) (run.nextAfter?_of_getElem? hx hy)
  case ended =>
    intro l last short k few
    rw [List.getLast?_map] at last
    rw [List.length_map] at short
    obtain ⟨x, hx, rfl⟩ := Option.map_eq_some_iff.1 last
    have none := ended short
    have same : (c.rule.nextAfterN m n).getLastD m = x := by
      rw [List.getLastD_eq_getLast?, hx, Option.getD_some]
    rw [← Rule.nextAfterN, same] at none
    exact prints_nothing (writable x (List.mem_of_getLast? hx)) none few

/-- **Listings go on where others ended.** Each expression that is accepted in some form has a
command line, whose arguments can be cut in two. What any command line for it lists after a moment
are the next occurrences of its rule, as lines that can be given back to it as the start: behind
each line but the last it prints the next one, and behind the last, if there are fewer than it was
asked for, nothing. The array has the same lines. -/
theorem exists_lists (accepted : Expression.read o text = .ok r)
    (valid : Moment.read? start.toList = some m) (small : n ≤ mostListed) :
    (∃ c : Command, c.IsFor o text ∧ c.Splits (formArguments o) ["--", text]) ∧
      ∀ c : Command, c.IsFor o text → c.Lists n start ((r.nextAfterN m n).map lineOf) := by
  refine ⟨exists_isFor accepted, fun c isFor => ?_⟩
  have lists := c.lists_nextAfterN valid small
  rwa [isFor.rule_eq accepted] at lists

/-- Midnight of each day. -/
def midnights : Command where
  request := { expression := some "0 0 * * *", seconds := some .never, verbosity := 1 }
  rule := ⟨0xfff, 0x7fffffff, 0, 0, 0, 0x1, 0x1, 0⟩
  accepted := ⟨_, rfl, rfl⟩
  isOpen := ⟨rfl, rfl, rfl⟩
  unlimited := rfl
  unchecked := rfl
  unnormalized := rfl

/-- Of the five midnights that are asked for, the calendar has three. -/
theorem lists_midnights :
    Expression.read { seconds := .never } "0 0 * * *" = .ok midnights.rule ∧
      Moment.read? "9999-12-28T12:00:00+09:00[+09:00]".toList =
        some ⟨.ofSeconds 253401966000, .fixed 32400⟩ ∧
      5 ≤ mostListed ∧ midnights.IsFor { seconds := .never } "0 0 * * *" ∧
      midnights.Lists 5 "9999-12-28T12:00:00+09:00[+09:00]"
        ["9999-12-29T00:00:00+09:00[+09:00]", "9999-12-30T00:00:00+09:00[+09:00]",
          "9999-12-31T00:00:00+09:00[+09:00]"] := by
  have accepted : Expression.read { seconds := .never } "0 0 * * *" = .ok midnights.rule := rfl
  have valid : Moment.read? "9999-12-28T12:00:00+09:00[+09:00]".toList =
      some ⟨.ofSeconds 253401966000, .fixed 32400⟩ := by decide +kernel
  have few : 5 ≤ mostListed := by decide
  have isFor : midnights.IsFor { seconds := .never } "0 0 * * *" := ⟨rfl, rfl⟩
  have lines : (midnights.rule.nextAfterN ⟨.ofSeconds 253401966000, .fixed 32400⟩ 5).map lineOf =
      ["9999-12-29T00:00:00+09:00[+09:00]", "9999-12-30T00:00:00+09:00[+09:00]",
        "9999-12-31T00:00:00+09:00[+09:00]"] := by decide +kernel
  have lists := (exists_lists accepted valid few).2 midnights isFor
  rw [lines] at lists
  exact ⟨accepted, valid, few, isFor, lists⟩

end Command

end CommandLine

end Recurrence
