import EntityQuery.Yaml.Cursor

/-!
# Words — text without quotes

A word goes on to a comment, to a colon before white space, or to the end of its line; within
brackets also to a bracket, a comma or a question mark. It goes on over spaces, and over line ends
too while the next line is indented far enough. A tab ends it.
-/

namespace EntityQuery.Yaml

/-- The characters that bound words within brackets. -/
def isFlowMark (c : Char) : Bool := c == ',' || c == '[' || c == ']' || c == '{' || c == '}'

/-- The characters up to the next gap or mark. -/
def chunk (inFlow : Bool) : List Char → List Char
  | [] => []
  | c :: cs =>
    if endsWord (some c) then []
    else if c == ':' && (endsWord cs.head? || (inFlow && cs.head?.any isFlowMark)) then []
    else if inFlow && (isFlowMark c || c == '?') then []
    else c :: chunk inFlow cs

/-- The line ends and spaces at a place: the line ends, and the place after them. `none` when a
    document begins or ends there. -/
def blankLines : Nat → Cursor → Option (List Char) × Cursor
  | 0, cur => (some [], cur)
  | fuel + 1, cur =>
    if cur.peek == some ' ' then blankLines fuel cur.next
    else
      match cur.lineBreak? with
      | some (c, after) =>
        if after.isSeparator then (none, after)
        else
          let (more, after) := blankLines fuel after
          (more.map (c :: ·), after)
      | none => (some [], cur)

/-- A gap in a word: what it stands for if the word can go on after it, the place after it, and
    whether it goes over a line end. -/
def gap (cur : Cursor) : Option (List Char) × Cursor × Bool :=
  let spaces := cur.rest.takeWhile (· == ' ')
  let after := cur.skip spaces.length
  match after.lineBreak? with
  | some (first, after) =>
    if after.isSeparator then (none, after, true)
    else
      let (more, after) := blankLines after.rest.length after
      (more.map (folded first), after, true)
  | none => (if spaces.isEmpty then none else some spaces, after, false)

/-- The rest of a word, the place after it, and whether that is at the beginning of a line. -/
def wordFrom (inFlow : Bool) (indent : Int) : Nat → Cursor → List Char × Cursor × Bool
  | 0, cur => ([], cur, false)
  | fuel + 1, cur =>
    let chars := if cur.peek == some '#' then [] else chunk inFlow cur.rest
    if chars.isEmpty then ([], cur, false)
    else
      match gap (cur.skip chars.length) with
      | (none, after, newLine) => (chars, after, newLine)
      | (some spaces, after, newLine) =>
        if after.peek == some '#' || (!inFlow && (after.column : Int) < indent)
            || (chunk inFlow after.rest).isEmpty then
          (chars, after, newLine)
        else
          let (more, after, newLine) := wordFrom inFlow indent fuel after
          (chars ++ spaces ++ more, after, newLine)

/-- The word that begins at a place, the place after it, and whether that begins a line. -/
def word (inFlow : Bool) (indent : Int) (cur : Cursor) : String × Cursor × Bool :=
  let (text, after, newLine) := wordFrom inFlow indent (cur.rest.length + 1) cur
  (String.ofList text, after, newLine)

end EntityQuery.Yaml
