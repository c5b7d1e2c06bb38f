import EntityQuery.Yaml.Cursor
import EntityQuery.Yaml.Scalar

/-!
# Printing — values as block documents

A record is written field by field, a list entry by entry; a list stands at the column of its key,
and everything else inside is two columns further to the right. Only an empty record or list is
written in brackets.

Text stands as it is when it reads back as the same text. Otherwise it is put between apostrophes,
and between quotation marks when it holds a character outside printable ASCII, which is then written
as an escape. A text that runs past column eighty goes on in the next line, at a lone space outside
quotation marks, and within them also after an escape, with a backslash at the end of the line.
-/

namespace EntityQuery.Yaml

/-! ## The form of a text -/

inductive Style where
  | plain
  | single
  | double
deriving DecidableEq, Repr

/-- Printable ASCII, or a line feed. -/
def isSimple (c : Char) : Bool := c == '\n' || (' ' ≤ c && c ≤ '~')

/-- The characters that a text without quotes must not begin with. -/
def openingMarks : List Char :=
  ['#', ',', '[', ']', '{', '}', '&', '*', '!', '|', '>', '\'', '"', '%', '@', '\x60']

/-- Whether a text begins with a mark. A question mark, a colon or a dash is one before a gap. -/
def beginsWithMark : List Char → Bool
  | [] => false
  | c :: cs =>
    openingMarks.contains c || ((c == '?' || c == ':' || c == '-') && endsWord cs.head?)

/-- Whether a text holds a colon before a gap, or a comment. -/
def holdsMark : List Char → Bool
  | c :: d :: cs =>
    (d == ':' && endsWord cs.head?) || (endsWord (some c) && d == '#') || holdsMark (d :: cs)
  | _ => false

/-- Whether a text begins like the mark of a document. -/
def beginsLikeMarker (cs : List Char) : Bool :=
  cs.take 3 == ['-', '-', '-'] || cs.take 3 == ['.', '.', '.']

/-- Whether some character of a class is followed by one of another class. -/
def holdsPair (p q : Char → Bool) : List Char → Bool
  | c :: d :: cs => (p c && q d) || holdsPair p q (d :: cs)
  | _ => false

/-- Whether a text ends with a space or a line end, or begins with one. -/
def isPadded (cs : List Char) : Bool :=
  cs.head?.any (fun c => c == ' ' || c == '\n') || cs.getLast?.any (fun c => c == ' ' || c == '\n')

/-- The simplest form in which a text can be written. -/
def styleOf (text : String) : Style :=
  let cs := text.toList
  let isSpace (c : Char) := c == ' '
  let isLineFeed (c : Char) := c == '\n'
  if !cs.all isSimple || holdsPair isSpace isLineFeed cs || holdsPair isLineFeed isSpace cs then
    .double
  else if !isPlainText text || isPadded cs || cs.contains '\n' || beginsWithMark cs || holdsMark cs
      || beginsLikeMarker cs then
    .single
  else .plain

/-! ## Long lines -/

/-- The column after which a text goes on in the next line. -/
def width : Nat := 80

/-- A new line, up to a column. -/
def newLine (indent : Nat) : List Char := '\n' :: List.replicate indent ' '

/-- Whether a space stands alone between these two neighbours. -/
def isLone (before after : Option Char) : Bool := before.any (· != ' ') && after.any (· != ' ')

/-- The rest of a text without quotes from a column on. -/
def plainFrom (indent : Nat) : Nat → Option Char → List Char → List Char
  | _, _, [] => []
  | column, before, c :: cs =>
    if c == ' ' && width < column && isLone before cs.head? then
      newLine indent ++ plainFrom indent indent (some c) cs
    else c :: plainFrom indent (column + 1) (some c) cs

/-- The rest of a text between apostrophes from a column on. -/
def singleFrom (indent : Nat) : Nat → Option Char → List Char → List Char
  | _, _, [] => []
  | column, before, c :: cs =>
    if c == '\'' then '\'' :: '\'' :: singleFrom indent (column + 2) (some c) cs
    else if c == '\n' then
      let first := if before == some '\n' then [] else ['\n']
      let last := if cs.head? == some '\n' then [] else List.replicate indent ' '
      first ++ '\n' :: last ++ singleFrom indent indent (some c) cs
    else if c == ' ' && width < column && isLone before cs.head? then
      newLine indent ++ singleFrom indent indent (some c) cs
    else c :: singleFrom indent (column + 1) (some c) cs

/-- The letters that stand for characters after a backslash. -/
def letters : List (Char × Char) :=
  [('\x00', '0'), ('\x07', 'a'), ('\x08', 'b'), ('\t', 't'), ('\n', 'n'), ('\x0b', 'v'),
    ('\x0c', 'f'), ('\r', 'r'), ('\x1b', 'e'), ('"', '"'), ('\\', '\\'), ('\x85', 'N'),
    ('\xa0', '_'), ('\u2028', 'L'), ('\u2029', 'P')]

/-- A code in capital hexadecimal digits. -/
def code (width n : Nat) : List Char :=
  let cs := (Nat.toDigits 16 n).map Char.toUpper
  List.replicate (width - cs.length) '0' ++ cs

/-- A character as an escape, if it cannot stand between quotation marks itself. -/
def escape? (c : Char) : Option (List Char) :=
  match letters.lookup c with
  | some d => some ['\\', d]
  | none =>
    if ' ' ≤ c && c ≤ '~' then none
    else if c.toNat ≤ 0xff then some ('\\' :: 'x' :: code 2 c.toNat)
    else if c.toNat ≤ 0xffff then some ('\\' :: 'u' :: code 4 c.toNat)
    else some ('\\' :: 'U' :: code 8 c.toNat)

/-- The rest of a text between quotation marks. `column` is where the last escape ended, and
    `waiting` the characters since then; a line can be broken after an escape or before a space, but
    not before the first character and not before the last one. -/
def doubleFrom (indent : Nat) : Nat → List Char → Bool → List Char → List Char
  | _, waiting, _, [] => waiting
  | column, waiting, first, c :: cs =>
    match escape? c with
    | some chars =>
      let column := column + waiting.length + chars.length
      if !first && !cs.isEmpty && width + 1 < column then
        let next := if cs.head? == some ' ' then ['\\'] else []
        waiting ++ chars ++ '\\' :: newLine indent ++ next
          ++ doubleFrom indent (indent + next.length) [] false cs
      else waiting ++ chars ++ doubleFrom indent column [] false cs
    | none =>
      if !first && !cs.isEmpty && (c == ' ' || waiting.isEmpty)
          && width < column + waiting.length then
        let next := if c == ' ' then ['\\'] else []
        waiting ++ '\\' :: newLine indent ++ next
          ++ doubleFrom indent (indent + next.length) [c] false cs
      else doubleFrom indent column (waiting ++ [c]) false cs

/-- A text in its simplest form, from a column on; further lines begin at the indent. -/
def textFrom (indent column : Nat) (text : String) : List Char :=
  match styleOf text with
  | .plain => plainFrom indent column none text.toList
  | .single => '\'' :: singleFrom indent (column + 1) none text.toList ++ ['\'']
  | .double => '"' :: doubleFrom indent (column + 1) [] true text.toList ++ ['"']

/-! ## Values -/

/-- A scalar. Values that documents do not hold are left out. -/
def scalarFrom (indent column : Nat) : Value → List Char
  | .text s => textFrom indent column s
  | .bool b => (if b then "true" else "false").toList
  | .int i => (toString i).toList
  | .list _ => ['[', ']']
  | .record _ => ['\x7b', '\x7d']
  | _ => "null".toList

/-- Whether a value is written in lines of its own. -/
def isBlock : Value → Bool
  | .list items => !items.isEmpty
  | .record fields => !fields.isEmpty
  | _ => false

def isList : Value → Bool
  | .list _ => true
  | _ => false

/-- The lines of a value behind the first column of the value, each without what stands there. -/
def indented (first : List Char) : List (List Char) → List (List Char)
  | [] => []
  | l :: ls => (first ++ l) :: ls.map fun l => ' ' :: ' ' :: l

mutual

/-- The lines of a value that stands at a column, each from that column on. -/
def lines (column : Nat) : Value → List (List Char)
  | .list items => entryLines column items
  | .record fields => fieldLines column fields
  | v => [scalarFrom (column + 2) column v]
termination_by structural v => v

def entryLines (column : Nat) : List Value → List (List Char)
  | [] => []
  | v :: vs =>
    (if isBlock v then indented ['-', ' '] (lines (column + 2) v)
      else [['-', ' '] ++ scalarFrom (column + 2) (column + 2) v]) ++ entryLines column vs
termination_by structural vs => vs

def fieldLines (column : Nat) : List (String × Value) → List (List Char)
  | [] => []
  | f :: fs =>
    let name := textFrom 0 0 f.1 ++ [':']
    (if !isBlock f.2 then
        [name ++ ' ' :: scalarFrom (column + 2) (column + name.length + 1) f.2]
      else if isList f.2 then name :: lines column f.2
      else name :: (lines (column + 2) f.2).map fun l => ' ' :: ' ' :: l) ++ fieldLines column fs
termination_by structural fs => fs

end

/-- A list or record as a document. -/
def render (v : Value) : String :=
  String.ofList ((lines 0 v).flatMap fun l => l ++ ['\n'])

end EntityQuery.Yaml
