/-!
# Cursors — a place in a text

Where a token may begin and what it means depends on its line and column, so reading keeps them
along with the text that is left. A line ends at a line feed, a carriage return, both together, or
one of three other line ends; the first three and U+0085 are read as a line feed.
-/

namespace EntityQuery.Yaml

/-- What is left of a text, and where that begins. -/
structure Cursor where
  rest   : List Char
  index  : Nat := 0
  line   : Nat := 0
  column : Nat := 0

def isBreak (c : Char) : Bool :=
  c == '\n' || c == '\r' || c == '\x85' || c == '\u2028' || c == '\u2029'

/-- A space or a tab. -/
def isSpace (c : Char) : Bool := c == ' ' || c == '\t'

/-- Whether a word ends here: at the end of the text, at white space or at a line end. -/
def endsWord : Option Char → Bool
  | none => true
  | some c => isSpace c || isBreak c

namespace Cursor

def peek (cur : Cursor) (n : Nat := 0) : Option Char := cur.rest[n]?

/-- The place after one character. -/
def next (cur : Cursor) : Cursor :=
  match cur.rest with
  | [] => cur
  | c :: cs =>
    if isBreak c && !(c == '\r' && cs.head? == some '\n') then
      ⟨cs, cur.index + 1, cur.line + 1, 0⟩
    else ⟨cs, cur.index + 1, cur.line, cur.column + if c == '\ufeff' then 0 else 1⟩

/-- The place after some characters. -/
def skip : Nat → Cursor → Cursor
  | 0, cur => cur
  | n + 1, cur => skip n cur.next

/-- The place after the characters of a class. -/
def skipWhile (p : Char → Bool) (cur : Cursor) : Cursor := cur.skip (cur.rest.takeWhile p).length

/-- The line end at this place, as it is read, and the place after it. -/
def lineBreak? (cur : Cursor) : Option (Char × Cursor) :=
  match cur.rest with
  | '\r' :: '\n' :: _ => some ('\n', cur.skip 2)
  | c :: _ =>
    if c == '\u2028' || c == '\u2029' then some (c, cur.next)
    else if isBreak c then some ('\n', cur.next)
    else none
  | [] => none

/-- Whether three equal characters stand here as a word. -/
def isMarker (c : Char) (cur : Cursor) : Bool :=
  cur.rest.take 3 == [c, c, c] && endsWord (cur.peek 3)

/-- Whether a document begins or ends here. -/
def isSeparator (cur : Cursor) : Bool := cur.isMarker '-' || cur.isMarker '.'

end Cursor

/-- The text that a line end and the empty lines after it stand for: a lone line end is a space, and
    of several the first is left out. -/
def folded (first : Char) (more : List Char) : List Char :=
  if first ≠ '\n' then first :: more
  else if more.isEmpty then [' ']
  else more

end EntityQuery.Yaml
