import EntityQuery.Yaml.Quoted
import EntityQuery.Yaml.Word

/-!
# Tokens — the marks of a document, with its layout made explicit

Indentation is turned into tokens: a block begins where a sequence entry or a key stands further to
the right than the block around it, and ends where a line stands further to the left. A key is
recognised late, at its colon, so the place of everything that may turn out to be a key is kept for
each level of brackets, as long as the line lasts and for 1024 characters at most; a key token is
then put in front of it. Something that stands at the block's own column must turn out to be a key.

Anchors, aliases, tags, directives and block scalars are not read.

* **`Yaml.tokens`** — the tokens of a text.
-/

namespace EntityQuery.Yaml

inductive Token where
  | documentStart
  | documentEnd
  | blockSequence
  | blockMapping
  | blockEnd
  | flowSequence
  | flowSequenceEnd
  | flowMapping
  | flowMappingEnd
  | entry
  | comma
  | key
  | value
  | scalar (text : String) (plain : Bool)
deriving DecidableEq, Repr

/-- Something that may turn out to be a key: the number of its token and its place. -/
structure KeyPlace where
  token    : Nat
  required : Bool
  index    : Nat
  line     : Nat
  column   : Nat

/-- A text that is being read, its open blocks and brackets, and the tokens so far. -/
structure Layout where
  cursor     : Cursor
  brackets   : Nat := 0
  indent     : Int := -1
  outer      : List Int := []
  keyAllowed : Bool := true
  keys       : List (Nat × KeyPlace) := []
  tokens     : List Token := []

namespace Layout

def push (l : Layout) (t : Token) : Layout := { l with tokens := l.tokens ++ [t] }

def insert (l : Layout) (i : Nat) (t : Token) : Layout :=
  { l with tokens := l.tokens.insertIdx i t }

/-- The same layout further on in the text. -/
def moveTo (l : Layout) (cursor : Cursor) : Layout := { l with cursor := cursor }

/-- Whether a kept place can no longer be a key. -/
def isStale (l : Layout) (k : KeyPlace) : Bool :=
  k.line != l.cursor.line || 1024 < l.cursor.index - k.index

/-- Forget the places that can no longer be keys. -/
def dropStale (l : Layout) : Option Layout :=
  if l.keys.any fun (_, k) => l.isStale k && k.required then none
  else some { l with keys := l.keys.filter fun (_, k) => !l.isStale k }

/-- Forget the place kept at this level of brackets. -/
def dropKey (l : Layout) : Option Layout :=
  match l.keys.lookup l.brackets with
  | some k =>
    if k.required then none
    else some { l with keys := l.keys.filter (·.1 != l.brackets) }
  | none => some l

/-- Keep this place, if a key may stand here. -/
def keepKey (l : Layout) : Option Layout :=
  if l.keyAllowed then do
    let l ← l.dropKey
    let required := l.brackets == 0 && l.indent == l.cursor.column
    let k : KeyPlace :=
      ⟨l.tokens.length, required, l.cursor.index, l.cursor.line, l.cursor.column⟩
    return { l with keys := (l.brackets, k) :: l.keys }
  else some l

/-- End the blocks that stand further to the right than a column. -/
def closeBlocks (column : Int) (l : Layout) : Layout :=
  if l.brackets != 0 then l
  else go l.outer l
where
  go (outer : List Int) (l : Layout) : Layout :=
    if l.indent ≤ column then l
    else match outer with
      | [] => l
      | i :: rest => go rest ({ l with indent := i, outer := rest }.push .blockEnd)

/-- Open a block at a column, if it is further to the right than the one around it. -/
def opens (l : Layout) (column : Nat) : Bool := l.indent < column

def openBlock (l : Layout) (column : Nat) : Layout :=
  { l with indent := column, outer := l.indent :: l.outer }

/-- Pass over spaces, comments and line ends; a key may stand at the beginning of a line. -/
def skipGap : Nat → Layout → Layout
  | 0, l => l
  | fuel + 1, l =>
    let cur := l.cursor.skipWhile (· == ' ')
    let cur := if cur.peek == some '#' then cur.skipWhile (!isBreak ·) else cur
    match cur.lineBreak? with
    | some (_, after) =>
      skipGap fuel { l with cursor := after, keyAllowed := l.keyAllowed || l.brackets == 0 }
    | none => l.moveTo cur

/-! ## Tokens one by one -/

def marker (l : Layout) (t : Token) : Option Layout := do
  let l ← (l.closeBlocks (-1)).dropKey
  return ({ l with keyAllowed := false }.push t).moveTo (l.cursor.skip 3)

def openBracket (l : Layout) (t : Token) : Option Layout := do
  let l ← l.keepKey
  return ({ l with brackets := l.brackets + 1, keyAllowed := true }.push t).moveTo l.cursor.next

def closeBracket (l : Layout) (t : Token) : Option Layout := do
  let l ← l.dropKey
  return ({ l with brackets := l.brackets - 1, keyAllowed := false }.push t).moveTo l.cursor.next

def comma (l : Layout) : Option Layout := do
  let l ← { l with keyAllowed := true }.dropKey
  return (l.push .comma).moveTo l.cursor.next

/-- Open a block of a kind at this place, where an entry or a key must be allowed. -/
def openHere (l : Layout) (t : Token) : Option Layout :=
  if l.brackets != 0 then some l
  else if !l.keyAllowed then none
  else if l.opens l.cursor.column then some ((l.openBlock l.cursor.column).push t)
  else some l

def entry (l : Layout) : Option Layout := do
  let l ← l.openHere .blockSequence
  let l ← { l with keyAllowed := true }.dropKey
  return (l.push .entry).moveTo l.cursor.next

def explicitKey (l : Layout) : Option Layout := do
  let l ← l.openHere .blockMapping
  let l ← { l with keyAllowed := l.brackets == 0 }.dropKey
  return (l.push .key).moveTo l.cursor.next

def value (l : Layout) : Option Layout :=
  match l.keys.lookup l.brackets with
  | some k =>
    let l := { l with keys := l.keys.filter (·.1 != l.brackets), keyAllowed := false }
    let l := l.insert k.token .key
    let l :=
      if l.brackets == 0 && l.opens k.column then
        (l.openBlock k.column).insert k.token .blockMapping
      else l
    some ((l.push .value).moveTo l.cursor.next)
  | none => do
    let l ← l.openHere .blockMapping
    let l ← { l with keyAllowed := l.brackets == 0 }.dropKey
    return (l.push .value).moveTo l.cursor.next

def quotedScalar (l : Layout) (double : Bool) : Except ReadFault Layout := do
  let l ← readable l.keepKey
  let (text, after) ← quoted double l.cursor
  return ({ l with keyAllowed := false }.push (.scalar text false)).moveTo after

def plainScalar (l : Layout) : Option Layout := do
  let l ← l.keepKey
  let (text, after, newLine) := word (l.brackets != 0) (l.indent + 1) l.cursor
  return ({ l with keyAllowed := newLine }.push (.scalar text true)).moveTo after

/-- The characters that mark something and begin no word. -/
def marks : List Char :=
  ['-', '?', ':', ',', '[', ']', '{', '}', '#', '&', '*', '!', '|', '>', '\'', '"', '%', '@',
    '\x60']

/-- Whether a word begins here. A dash, a question mark or a colon begins one before another
    character; the latter two only outside brackets. -/
def beginsWord (l : Layout) (c : Char) : Bool :=
  (!endsWord (some c) && !marks.contains c)
    || (!endsWord (l.cursor.peek 1) && (c == '-' || (l.brackets == 0 && (c == '?' || c == ':'))))

/-- Read the mark or the word at a place that holds a character. -/
def readUnquoted? (l : Layout) (c : Char) : Option Layout :=
  let alone := endsWord (l.cursor.peek 1)
  if c == '%' && l.cursor.column == 0 then none
  else if l.cursor.column == 0 && l.cursor.isMarker '-' then l.marker .documentStart
  else if l.cursor.column == 0 && l.cursor.isMarker '.' then l.marker .documentEnd
  else if c == '[' then l.openBracket .flowSequence
  else if c == '{' then l.openBracket .flowMapping
  else if c == ']' then l.closeBracket .flowSequenceEnd
  else if c == '}' then l.closeBracket .flowMappingEnd
  else if c == ',' then l.comma
  else if c == '-' && alone then l.entry
  else if c == '?' && (l.brackets != 0 || alone) then l.explicitKey
  else if c == ':' && (l.brackets != 0 || alone) then l.value
  else if l.beginsWord c then l.plainScalar
  else none

/-- Read the token at a place that holds a character. -/
def readToken (l : Layout) (c : Char) : Except ReadFault Layout :=
  if c == '\'' then l.quotedScalar false
  else if c == '"' then l.quotedScalar true
  else readable (l.readUnquoted? c)

/-- Read token after token to the end of the text. -/
def readAll : Nat → Layout → Except ReadFault Layout
  | 0, _ => throw .malformed
  | fuel + 1, l => do
    let l := l.skipGap (l.cursor.rest.length + 1)
    let l ← readable l.dropStale
    let l := l.closeBlocks l.cursor.column
    match l.cursor.peek with
    | none => readable (l.closeBlocks (-1)).dropKey
    | some c => readAll fuel (← l.readToken c)

end Layout

/-- Whether a document may hold a character. -/
def isPrintable (c : Char) : Bool :=
  c == '\t' || c == '\n' || c == '\r' || c == '\x85'
    || (' ' ≤ c && c ≤ '~') || ('\xa0' ≤ c && c ≤ '\ufffd') || 0x10000 ≤ c.toNat

/-- The tokens of a text. -/
def tokens (text : String) : Except ReadFault (List Token) := do
  let cs := text.toList
  if !cs.all isPrintable then throw .malformed
  let cursor : Cursor := { rest := cs }
  let cursor := if cs.head? == some '\ufeff' then cursor.next else cursor
  let l ← Layout.readAll (cs.length + 2) { cursor := cursor }
  return l.tokens

end EntityQuery.Yaml
