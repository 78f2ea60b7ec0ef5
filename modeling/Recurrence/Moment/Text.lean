import Recurrence.Moment
import Recurrence.Text.Decimal

/-!
# Moments as text

A moment is written as its wall-clock time, its offset, and the name of its zone in brackets:
`2025-01-01T00:00:00+00:00[UTC]`. A zone other than UTC has its offset for a name. Reading also
takes a plain `Z` for UTC, and knows zones of a fixed offset only.
-/

namespace Recurrence.Moment

/-! ## Writing -/

def writeOffset (offset : Int) : List Char :=
  let minutes := offset.natAbs / 60
  (if offset < 0 then '-' else '+') ::
    Decimal.writePadded 2 (minutes / 60) ++ [':'] ++ Decimal.writePadded 2 (minutes % 60)

def writeDate (d : Date) : List Char :=
  Decimal.writePadded 4 d.year.toNat ++ ['-'] ++ Decimal.writePadded 2 d.month ++ ['-'] ++
    Decimal.writePadded 2 d.day

def writeTime (hour minute second : Nat) : List Char :=
  Decimal.writePadded 2 hour ++ [':'] ++ Decimal.writePadded 2 minute ++ [':'] ++
    Decimal.writePadded 2 second

/-- Writes the name of a zone, which is an offset unless that is zero. -/
def writeZoneName (offset : Int) : List Char :=
  if offset = 0 then ['U', 'T', 'C'] else writeOffset offset

/-- Writes a moment whose year has four digits. -/
def write (m : Moment) : List Char :=
  let w := m.wallClock
  writeDate w.date ++ ['T'] ++ writeTime w.hour w.minute w.second ++ writeOffset m.offset ++
    ['['] ++ writeZoneName m.offset ++ [']']

/-! ## Reading -/

/-- Reads the digits of a number with a fixed width off the front of some text. -/
def readDigits? (width : Nat) (text : List Char) : Option (Nat × List Char) := do
  guard (width ≤ text.length)
  let n ← Decimal.read? (text.take width)
  return (n, text.drop width)

/-- Reads one given character off the front of some text. -/
def readChar? (c : Char) (text : List Char) : Option (List Char) :=
  if text.head? = some c then some text.tail else none

def readDate? (text : List Char) : Option (Date × List Char) := do
  let (year, text) ← readDigits? 4 text
  let text ← readChar? '-' text
  let (month, text) ← readDigits? 2 text
  let text ← readChar? '-' text
  let (day, text) ← readDigits? 2 text
  let date : Date := ⟨year, month, day⟩
  guard date.IsValid
  return (date, text)

/-- Reads a time of day off the front of some text, as the second of the day. A leap second is taken
for the second before it. -/
def readTime? (text : List Char) : Option (Nat × List Char) := do
  let (hour, text) ← readDigits? 2 text
  let text ← readChar? ':' text
  let (minute, text) ← readDigits? 2 text
  let text ← readChar? ':' text
  let (second, text) ← readDigits? 2 text
  guard (hour ≤ 23 ∧ minute ≤ 59 ∧ second ≤ 60)
  return (3600 * hour + 60 * minute + min second 59, text)

/-- Reads a sign off the front of some text: whether it is a minus. -/
def readSign? : List Char → Option (Bool × List Char)
  | '+' :: text => some (false, text)
  | '-' :: text => some (true, text)
  | _ => none

/-- Reads an offset off the front of some text, in seconds. -/
def readOffset? (text : List Char) : Option (Int × List Char) := do
  let (negative, text) ← readSign? text
  let (hours, text) ← readDigits? 2 text
  let text ← readChar? ':' text
  let (minutes, text) ← readDigits? 2 text
  guard (hours ≤ 25 ∧ minutes ≤ 59)
  let seconds : Int := 3600 * hours + 60 * minutes
  return (if negative then -seconds else seconds, text)

/-- Reads the name of the zone in brackets, which has to fit the offset before it. -/
def readZoneName? (offset : Int) (text : List Char) : Option Zone :=
  if text = ['[', 'U', 'T', 'C', ']'] then
    if offset = 0 then some .utc else none
  else do
    let text ← readChar? '[' text
    let (name, text) ← readOffset? text
    guard (name = offset ∧ text = [']'])
    return .fixed offset

/-- Reads what follows the wall-clock time: the zone. -/
def readZone? (text : List Char) : Option Zone :=
  if text = ['Z'] then some .utc
  else do
    let (offset, text) ← readOffset? text
    readZoneName? offset text

/-- Reads a moment in UTC or at a fixed offset of whole minutes: the time of day has no fraction,
and what follows it is `Z`, `+00:00[UTC]`, or an offset with itself for the name, as in
`+09:00[+09:00]`. No other zone is read, as no table of zones is at hand; what is said of moments
that are read is said of these forms alone. -/
def read? (text : List Char) : Option Moment := do
  let (date, text) ← readDate? text
  let text ← readChar? 'T' text
  let (second, text) ← readTime? text
  let zone ← readZone? text
  let instant ← Instant.atSecond? (86400 * date.dayNumber + second - zone.initial)
  return ⟨instant, zone⟩

end Recurrence.Moment
