import EntityQuery.Toml.Number
import EntityQuery.Toml.Quoted
import EntityQuery.Toml.Table

/-!
# Configurations in TOML

A configuration is read line by line: a header opens a table, or a new table of a list of tables,
and a pair sets a name in the table that was opened last. Comments and blank lines may stand
anywhere. Whatever is declared twice, or does not fit its line, makes the whole text unreadable.

* **`Toml.read`** — the table of a text.
-/

namespace EntityQuery.Toml

/-! ## Keys -/

def isBare (c : Char) : Bool := c.isAlphanum || c == '-' || c == '_'

/-- One name of a key, bare or quoted. -/
def name? (cs : List Char) : Option (String × List Char) :=
  match cs.span isBare with
  | ([], _) => line? cs
  | (bare, rest) => some (String.ofList bare, rest)

/-- Names with points between them, and white space around each. -/
def key? : Nat → List Char → Option (Path × List Char)
  | 0, _ => none
  | fuel + 1, cs => do
    let (name, rest) ← name? cs
    match rest.dropWhile isSpace with
    | '.' :: rest =>
      let (names, rest) ← key? fuel (rest.dropWhile isSpace)
      return (name :: names, rest)
    | rest => return ([name], rest)

/-- A key and the equals sign after it. -/
def keyBefore? (cs : List Char) : Option (Path × List Char) := do
  let (path, rest) ← key? (cs.length + 1) cs
  match rest with
  | '=' :: rest => return (path, rest.dropWhile isSpace)
  | _ => none

/-- The names above the last one, and the last one. -/
def lastName? (path : Path) : Option (Path × String) := path.getLast?.map (path.dropLast, ·)

/-! ## Comments -/

/-- The characters after a comment, if one stands here. -/
def afterComment? (cs : List Char) : Option (List Char) :=
  match cs with
  | '#' :: rest =>
    let (comment, rest) := rest.span (· != '\n')
    if comment.any isControl then none else some rest
  | _ => some cs

/-- The characters after blanks, line ends and comments. -/
def afterGap? : Nat → List Char → Option (List Char)
  | 0, cs => some cs
  | fuel + 1, cs => do
    let rest := cs.dropWhile fun c => isSpace c || c == '\n'
    let rest ← afterComment? rest
    if rest.length = cs.length then return rest else afterGap? fuel rest

/-! ## Values -/

/-- Whether names are closed for good under a value. -/
def isInline : Value → Bool
  | .list _ | .record _ => true
  | _ => false

/-- A value other than a list or table: text, a truth value, a date or time, or a number. -/
def atom (cs : List Char) : Except ReadFault (Value × List Char) :=
  match cs with
  | '"' :: _ | '\'' :: _ => do
    let (s, rest) ← readable (string? cs)
    return (.text s, rest)
  | 't' :: 'r' :: 'u' :: 'e' :: rest => .ok (.bool true, rest)
  | 'f' :: 'a' :: 'l' :: 's' :: 'e' :: rest => .ok (.bool false, rest)
  | _ =>
    match time? cs with
    | some result => readable result
    | none => number cs

mutual

/-- A value. -/
def value (fuel : Nat) (cs : List Char) : Except ReadFault (Value × List Char) :=
  match fuel with
  | 0 => .error .malformed
  | fuel + 1 =>
    match cs with
    | '[' :: rest => do
      let (items, rest) ← items fuel (← readable (afterGap? rest.length rest))
      return (.list items, rest)
    | '\x7b' :: rest => do
      match rest.dropWhile isSpace with
      | '\x7d' :: rest => return (.record [], rest)
      | rest =>
        let (table, rest) ← pairs fuel [] {} rest
        return (.record table, rest)
    | cs => atom cs

/-- The items of a list up to the closing bracket; a comma may stand after the last one. -/
def items (fuel : Nat) (cs : List Char) : Except ReadFault (List Value × List Char) :=
  match fuel with
  | 0 => .error .malformed
  | fuel + 1 =>
    match cs with
    | ']' :: rest => .ok ([], rest)
    | cs => do
      let (v, rest) ← value fuel cs
      match ← readable (afterGap? rest.length rest) with
      | ']' :: rest => return ([v], rest)
      | ',' :: rest =>
        let (vs, rest) ← items fuel (← readable (afterGap? rest.length rest))
        return (v :: vs, rest)
      | _ => throw .malformed

/-- The pairs of an inline table up to the closing brace, added to a table. -/
def pairs (fuel : Nat) (t : Table) (closed : Closed) (cs : List Char) :
    Except ReadFault (Table × List Char) :=
  match fuel with
  | 0 => .error .malformed
  | fuel + 1 => do
    let (path, rest) ← readable (keyBefore? cs)
    let (v, rest) ← value fuel rest
    if closed.isFrozen path then throw .malformed
    let (above, last) ← readable (lastName? path)
    let t ← readable (updateAt false (addNew last v) above t)
    match rest.dropWhile isSpace with
    | '\x7d' :: rest => return (t, rest)
    | ',' :: rest =>
      let closed := if isInline v then closed.mark path .frozen else closed
      pairs fuel t closed (rest.dropWhile isSpace)
    | _ => throw .malformed

end

/-! ## Statements -/

/-- A configuration that is being read: its tables, what is closed, and the table that is open. -/
structure Progress where
  table  : Table := []
  closed : Closed := {}
  header : Path := []

/-- The proper beginnings of a path, apart from the empty one. -/
def beginnings (path : Path) : List Path :=
  (List.range path.length).filterMap fun i => if i = 0 then none else some (path.take i)

/-- Set a name in the open table. -/
def setPair (p : Progress) (cs : List Char) : Except ReadFault (Progress × List Char) := do
  let (path, rest) ← readable (keyBefore? cs)
  let (v, rest) ← value (2 * rest.length + 2) rest
  let onTheWay := (beginnings path).map (p.header ++ ·)
  if onTheWay.any p.closed.isOpened then throw .malformed
  let closed := { p.closed with pending := p.closed.pending ++ onTheWay }
  let (above, last) ← readable (lastName? path)
  if closed.isFrozen (p.header ++ above) then throw .malformed
  let table ← readable (updateAt true (addNew last v) (p.header ++ above) p.table)
  let closed := if isInline v then closed.mark (p.header ++ path) .frozen else closed
  return ({ p with table := table, closed := closed }, rest)

/-- Open a table. -/
def openTable? (p : Progress) (cs : List Char) : Option (Progress × List Char) := do
  let (path, rest) ← key? (cs.length + 1) (cs.dropWhile isSpace)
  if p.closed.isOpened path || p.closed.isFrozen path then none
  let table ← updateAt true some path p.table
  match rest with
  | ']' :: rest =>
    return ({ p with table := table, closed := p.closed.mark path .opened, header := path }, rest)
  | _ => none

/-- Open a new table of a list of tables. -/
def openItem? (p : Progress) (cs : List Char) : Option (Progress × List Char) := do
  let (path, rest) ← key? (cs.length + 1) (cs.dropWhile isSpace)
  if p.closed.isFrozen path then none
  let closed := (p.closed.reopen path).mark path .opened
  let (above, last) ← lastName? path
  let table ← updateAt true (addItem last) above p.table
  match rest with
  | ']' :: ']' :: rest => return ({ p with table := table, closed := closed, header := path }, rest)
  | _ => none

/-- One statement, if there is one before the comment or the end of the line. -/
def statement (p : Progress) (cs : List Char) : Except ReadFault (Progress × List Char) :=
  match cs with
  | '[' :: '[' :: rest => readable (openItem? { p with closed := p.closed.atHeader } rest)
  | '[' :: rest => readable (openTable? { p with closed := p.closed.atHeader } rest)
  | c :: _ =>
    if isBare c || c == '"' || c == '\'' then setPair p cs
    else if c == '#' || c == '\n' then .ok (p, cs)
    else .error .malformed
  | [] => .ok (p, [])

/-- The statements from here on, one a line. -/
def statements : Nat → Progress → List Char → Except ReadFault Progress
  | 0, _, _ => throw .malformed
  | fuel + 1, p, cs => do
    let (p, rest) ← statement p (cs.dropWhile isSpace)
    match ← readable (afterComment? (rest.dropWhile isSpace)) with
    | [] => return p
    | '\n' :: rest => statements fuel p rest
    | _ => throw .malformed

/-- A text with every carriage return before a line feed left out. -/
def withoutReturns : List Char → List Char
  | [] => []
  | '\r' :: '\n' :: cs => '\n' :: withoutReturns cs
  | c :: cs => c :: withoutReturns cs

/-- The table of a text. -/
def read (text : String) : Except ReadFault Table := do
  let cs := withoutReturns text.toList
  let p ← statements (cs.length + 1) {} cs
  return p.table

end EntityQuery.Toml
