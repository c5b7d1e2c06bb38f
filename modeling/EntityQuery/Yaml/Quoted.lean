import EntityQuery.Text.Numeral
import EntityQuery.Yaml.Cursor

/-!
# Quoted scalars — text between quotes

Between apostrophes everything stands for itself, and an apostrophe is written twice. Between
quotation marks a backslash begins an escape: a letter for a character, two, four or eight
hexadecimal digits for a code, or a line end that is left out. In both forms a line end is folded,
with the white space around it, and no document may begin or end.
-/

namespace EntityQuery.Yaml

/-- The characters that single letters stand for after a backslash. -/
def escapes : List (Char × Char) :=
  [('0', '\x00'), ('a', '\x07'), ('b', '\x08'), ('t', '\t'), ('\t', '\t'), ('n', '\n'),
    ('v', '\x0b'), ('f', '\x0c'), ('r', '\r'), ('e', '\x1b'), (' ', ' '), ('"', '"'),
    ('\\', '\\'), ('/', '/'), ('N', '\x85'), ('_', '\xa0'), ('L', '\u2028'), ('P', '\u2029')]

/-- The letters that begin a code, and how many digits it has. -/
def codeWidths : List (Char × Nat) := [('x', 2), ('u', 4), ('U', 8)]

/-- The character that hexadecimal digits stand for. -/
def charOfCode (digits : List Char) : Except ReadFault Char := do
  let n ← readable (Text.natural? 16 digits)
  if h : n.isValidChar then return Char.ofNatAux n h
  else if n < 0x110000 then throw .malformed
  else if n < 0x80000000 then throw (.scalar .codeBeyondLast)
  else throw (.scalar .codeBeyondWords)

/-- The empty lines after a line end, and the place where text goes on. -/
def emptyLines : Nat → Cursor → Option (List Char × Cursor)
  | 0, cur => some ([], cur)
  | fuel + 1, cur =>
    if cur.isSeparator then none
    else
      let after := cur.skipWhile isSpace
      match after.lineBreak? with
      | some (c, after) => do
        let (more, after) ← emptyLines fuel after
        return (c :: more, after)
      | none => some ([], after)

/-- What a backslash at this place stands for, and the place after it. -/
def escaped (cur : Cursor) : Except ReadFault (List Char × Cursor) := do
  let cur := cur.next
  match cur.lineBreak? with
  | some (_, after) => readable (emptyLines after.rest.length after)
  | none =>
    let c ← readable cur.peek
    match escapes.lookup c, codeWidths.lookup c with
    | some d, _ => return ([d], cur.next)
    | none, some width =>
      let digits := cur.next.rest.take width
      if digits.length < width then throw .malformed
      return ([← charOfCode digits], cur.next.skip width)
    | none, none => throw .malformed

/-- The text from a place to the closing quote, and the place after that. -/
def quotedFrom (double : Bool) : Nat → Cursor → Except ReadFault (List Char × Cursor)
  | 0, _ => throw .malformed
  | fuel + 1, cur => do
    let c ← readable cur.peek
    if !double && c == '\'' then
      if cur.peek 1 == some '\'' then
        let (text, after) ← quotedFrom double fuel (cur.skip 2)
        return ('\'' :: text, after)
      else return ([], cur.next)
    else if double && c == '"' then return ([], cur.next)
    else if double && c == '\\' then
      let (chars, after) ← escaped cur
      let (text, after) ← quotedFrom double fuel after
      return (chars ++ text, after)
    else if isSpace c || isBreak c then
      let gap := cur.rest.takeWhile isSpace
      let after := cur.skip gap.length
      match after.lineBreak? with
      | some (first, after) =>
        let (more, after) ← readable (emptyLines after.rest.length after)
        let (text, after) ← quotedFrom double fuel after
        return (folded first more ++ text, after)
      | none =>
        let (text, after) ← quotedFrom double fuel after
        return (gap ++ text, after)
    else
      let (text, after) ← quotedFrom double fuel cur.next
      return (c :: text, after)

/-- The quoted text that begins at a place, and the place after it. -/
def quoted (double : Bool) (cur : Cursor) : Except ReadFault (String × Cursor) := do
  let (text, after) ← quotedFrom double (cur.rest.length + 1) cur.next
  return (String.ofList text, after)

end EntityQuery.Yaml
