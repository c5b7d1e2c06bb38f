import EntityQuery.Yaml.Token

/-!
# Nodes — the structure that tokens spell

A node is a scalar, a sequence or a mapping. Sequences and mappings are written as blocks, entry by
entry and key by key, or between brackets with commas. What is left out between two marks is an
empty word. A sequence may stand at its key's own column, where no block begins; it then goes on for
as long as entries follow. A pair inside a bracketed sequence is a mapping of its own.

* **`Yaml.Node.ofTokens?`** — the one node of a document, or nothing for an empty one.
-/

namespace EntityQuery.Yaml

inductive Node where
  | scalar (text : String) (plain : Bool)
  | sequence (items : List Node)
  | mapping (pairs : List (Node × Node))
deriving Repr

namespace Node

/-- The node of what is left out. -/
def empty : Node := .scalar "" true

/-- Whether the next token is one of these. -/
def stops (ts : List Token) (marks : List Token) : Bool := ts.head?.any marks.contains

/- Reading goes down one level of `fuel` for each node, entry and key; each of these takes at least
   one token, or stands for one left out after a token that was taken. -/
mutual

/-- A node. Blocks are allowed at the places of blocks, and entries without a block after a key. -/
def read (fuel : Nat) (block indentless : Bool) (ts : List Token) : Option (Node × List Token) :=
  match fuel with
  | 0 => none
  | fuel + 1 =>
    match ts with
    | .scalar text plain :: ts => some (.scalar text plain, ts)
    | .flowSequence :: ts => do
      let (items, ts) ← flowItems fuel true ts
      return (.sequence items, ts)
    | .flowMapping :: ts => do
      let (pairs, ts) ← flowPairs fuel true ts
      return (.mapping pairs, ts)
    | .blockSequence :: ts =>
      if block then do
        let (items, ts) ← entries fuel ts
        return (.sequence items, ts)
      else none
    | .blockMapping :: ts =>
      if block then do
        let (pairs, ts) ← blockPairs fuel ts
        return (.mapping pairs, ts)
      else none
    | .entry :: _ =>
      if indentless then do
        let (items, ts) ← indentlessEntries fuel ts
        return (.sequence items, ts)
      else none
    | _ => none

/-- A node, or an empty word if one of some marks comes first. -/
def readUnless (fuel : Nat) (marks : List Token) (block indentless : Bool) (ts : List Token) :
    Option (Node × List Token) :=
  match fuel with
  | 0 => none
  | fuel + 1 => if stops ts marks then some (empty, ts) else read fuel block indentless ts

/-- The entries of a block. -/
def entries (fuel : Nat) (ts : List Token) : Option (List Node × List Token) :=
  match fuel with
  | 0 => none
  | fuel + 1 =>
    match ts with
    | .entry :: ts => do
      let (item, ts) ← readUnless fuel [.entry, .blockEnd] true false ts
      let (items, ts) ← entries fuel ts
      return (item :: items, ts)
    | .blockEnd :: ts => some ([], ts)
    | _ => none

/-- Entries at the column of their key. -/
def indentlessEntries (fuel : Nat) (ts : List Token) : Option (List Node × List Token) :=
  match fuel with
  | 0 => none
  | fuel + 1 =>
    match ts with
    | .entry :: ts => do
      let (item, ts) ← readUnless fuel [.entry, .key, .value, .blockEnd] true false ts
      let (items, ts) ← indentlessEntries fuel ts
      return (item :: items, ts)
    | ts => some ([], ts)

/-- The keys and values of a block. -/
def blockPairs (fuel : Nat) (ts : List Token) : Option (List (Node × Node) × List Token) :=
  match fuel with
  | 0 => none
  | fuel + 1 =>
    match ts with
    | .key :: ts => do
      let (key, ts) ← readUnless fuel [.key, .value, .blockEnd] true true ts
      let (value, ts) ← blockValue fuel ts
      let (pairs, ts) ← blockPairs fuel ts
      return ((key, value) :: pairs, ts)
    | .blockEnd :: ts => some ([], ts)
    | _ => none

/-- The value after a key of a block. -/
def blockValue (fuel : Nat) (ts : List Token) : Option (Node × List Token) :=
  match fuel with
  | 0 => none
  | fuel + 1 =>
    match ts with
    | .value :: ts => readUnless fuel [.key, .value, .blockEnd] true true ts
    | ts => some (empty, ts)

/-- The items between square brackets; before all but the first comes a comma. -/
def flowItems (fuel : Nat) (first : Bool) (ts : List Token) : Option (List Node × List Token) :=
  match fuel with
  | 0 => none
  | fuel + 1 =>
    match ts with
    | .flowSequenceEnd :: ts => some ([], ts)
    | ts => do
      let ts ← if first then some ts else afterComma ts
      match ts with
      | .flowSequenceEnd :: ts => return ([], ts)
      | .key :: ts =>
        let (key, ts) ← readUnless fuel [.value, .comma, .flowSequenceEnd] false false ts
        let (value, ts) ← flowValue fuel .flowSequenceEnd ts
        let (items, ts) ← flowItems fuel false ts
        return (.mapping [(key, value)] :: items, ts)
      | ts =>
        let (item, ts) ← read fuel false false ts
        let (items, ts) ← flowItems fuel false ts
        return (item :: items, ts)

/-- The keys and values between braces; a key without a colon has an empty value. -/
def flowPairs (fuel : Nat) (first : Bool) (ts : List Token) :
    Option (List (Node × Node) × List Token) :=
  match fuel with
  | 0 => none
  | fuel + 1 =>
    match ts with
    | .flowMappingEnd :: ts => some ([], ts)
    | ts => do
      let ts ← if first then some ts else afterComma ts
      match ts with
      | .flowMappingEnd :: ts => return ([], ts)
      | .key :: ts =>
        let (key, ts) ← readUnless fuel [.value, .comma, .flowMappingEnd] false false ts
        let (value, ts) ← flowValue fuel .flowMappingEnd ts
        let (pairs, ts) ← flowPairs fuel false ts
        return ((key, value) :: pairs, ts)
      | ts =>
        let (key, ts) ← read fuel false false ts
        let (pairs, ts) ← flowPairs fuel false ts
        return ((key, empty) :: pairs, ts)

/-- The value after a key between brackets. -/
def flowValue (fuel : Nat) (close : Token) (ts : List Token) : Option (Node × List Token) :=
  match fuel with
  | 0 => none
  | fuel + 1 =>
    match ts with
    | .value :: ts => readUnless fuel [.comma, close] false false ts
    | ts => some (empty, ts)

/-- The tokens after a comma. -/
def afterComma : List Token → Option (List Token)
  | .comma :: ts => some ts
  | _ => none

end

/-- Whether nothing is left but marks of the document's end. -/
def isOver (ts : List Token) : Bool := ts.all (· == .documentEnd)

/-- The node that tokens spell, if they spell one and nothing else; inside, nothing stands for a
    text without a document. -/
def ofTokens? (ts : List Token) : Option (Option Node) := do
  let fuel := 3 * ts.length + 3
  match ts with
  | [] => return none
  | .documentStart :: ts =>
    if isOver ts then return some empty
    let (node, ts) ← readUnless fuel [.documentStart, .documentEnd] true false ts
    if isOver ts then return some node else none
  | ts =>
    let (node, ts) ← read fuel true false ts
    if isOver ts then return some node else none

end Node

end EntityQuery.Yaml
