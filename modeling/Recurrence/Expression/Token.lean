/-!
# Tokens of an expression

An expression is a row of columns separated by blanks, and a column is a list of items separated by
commas. Both are cut out as tokens that remember where they stand: a position is the number of bytes
of UTF-8 text that come before it. Empty items are kept, so that they can be reported where they
stand.
-/

namespace Recurrence.Expression

/-- A stretch of the input, in bytes: from `start` up to, and without, `stop`. -/
structure Span where
  start : Nat
  stop : Nat
deriving DecidableEq, Repr

def byteLength : List Char → Nat
  | [] => 0
  | c :: rest => c.utf8Size + byteLength rest

/-- A piece of the input and the position of its first byte. -/
structure Token where
  text : List Char
  start : Nat
deriving DecidableEq, Repr

namespace Token

/-- The position after the last byte of a token. -/
def stop (t : Token) : Nat := t.start + byteLength t.text

def span (t : Token) : Span := ⟨t.start, t.stop⟩

/-- Puts a character at a position before a row of words: it joins the first word when that begins
right behind it. -/
def cons (c : Char) (position : Nat) : List Token → List Token
  | [] => [⟨[c], position⟩]
  | t :: ts =>
    if t.start = position + c.utf8Size then ⟨c :: t.text, position⟩ :: ts
    else ⟨[c], position⟩ :: t :: ts

end Token

/-- Whether a character separates columns: space, tab, line feed, form feed and carriage return
do. -/
def isBlank (c : Char) : Bool :=
  c = ' ' || c = '\t' || c = '\n' || c = '\x0c' || c = '\r'

/-- The words of some text that begins at `position`. -/
def wordsFrom (position : Nat) : List Char → List Token
  | [] => []
  | c :: rest =>
    let words := wordsFrom (position + c.utf8Size) rest
    if isBlank c then words else Token.cons c position words

/-- The longest stretches of the input without blanks. -/
def words (input : List Char) : List Token :=
  wordsFrom 0 input

/-- The pieces between the commas of some text that begins at `position`: the first one and the
others. -/
def piecesFrom (position : Nat) : List Char → Token × List Token
  | [] => (⟨[], position⟩, [])
  | c :: rest =>
    let (first, others) := piecesFrom (position + c.utf8Size) rest
    if c = ',' then (⟨[], position⟩, first :: others)
    else (⟨c :: first.text, position⟩, others)

/-- The items of a column; one more than it has commas. -/
def Token.items (t : Token) : List Token :=
  let (first, others) := piecesFrom t.start t.text
  first :: others

/-- Cuts some text at the first occurrence of a character, which is dropped. -/
def cutAt? (separator : Char) : List Char → Option (List Char × List Char)
  | [] => none
  | c :: rest =>
    if c = separator then some ([], rest)
    else (cutAt? separator rest).map fun (front, back) => (c :: front, back)

end Recurrence.Expression
