import EntityQuery.Yaml.Node
import EntityQuery.Yaml.Scalar

/-!
# Documents — the values that a text in YAML spells

Scalars become values by their form, sequences lists, and mappings records. The last of several
equal keys counts. A key that is not text keeps its spelling, since no field of an index has such a
name; a sequence or mapping cannot be a key. Under the key `<<` stands a mapping, or a sequence of
them, whose pairs are taken over where the mapping has none of its own.

A document is made in two steps. `Node.tree` finds out what every scalar and every key stands for,
and a *tree* holds the answers, faults among them. Sequences and mappings are then filled level by
level, so of several faults the one on the highest level is found first (`Tree.firstFault?`).

* **`Yaml.read`** — the document of a text, nothing for a text without one.
-/

namespace EntityQuery.Yaml

/-- Set a field to a value, where it stands or at the end. -/
def setField (name : String) (v : Value) : List (String × Value) → List (String × Value)
  | [] => [(name, v)]
  | f :: fs => if f.1 = name then (name, v) :: fs else f :: setField name v fs

/-- The fields in order, the last of several of one name counting. -/
def ofPairs (pairs : List (String × Value)) : List (String × Value) :=
  pairs.foldl (fun fields f => setField f.1 f.2 fields) []

/-- The value of a scalar. A quoted one is text. -/
def scalarValue (text : String) (plain : Bool) : Except ReadFault Value :=
  if !plain then .ok (.text text)
  else
    match Scalar.ofPlain text with
    | .value v => .ok v
    | .text s => .ok (.text s)
    | .faulty cause => .error (.scalar cause)
    | .merge | .default => .error .malformed

/-- Whether a node is the key under which other mappings are taken over. -/
def isMergeKey : Node → Bool
  | .scalar "<<" true => true
  | _ => false

/-- The name of a field. -/
def fieldName : Node → Except ReadFault String
  | .scalar text plain =>
    if plain && text = "=" then .ok text
    else do
      let _ ← scalarValue text plain
      return text
  | _ => .error .malformed

/-! ## Trees -/

/-- A node with the answers for its scalars and keys. -/
inductive Tree where
  | scalar (answer : Except ReadFault Value)
  | sequence (items : List Tree)
  | mapping (pairs : List (Except ReadFault String × Tree))
  /-- A mapping that takes over something else than mappings. -/
  | faulty

namespace Tree

abbrev Pairs := List (Except ReadFault String × Tree)

def pairs? : Tree → Option Pairs
  | mapping pairs => some pairs
  | _ => none

/-- The pairs that are taken over from a mapping, or from several, the last of them first. -/
def takenOver? : Tree → Option Pairs
  | mapping pairs => some pairs
  | sequence items => do return (← items.mapM pairs?).reverse.flatten
  | _ => none

/-- The pairs that come first and the others make a mapping. -/
def ofPairs? : Option (Pairs × Pairs) → Tree
  | some (taken, own) => mapping (taken ++ own)
  | none => faulty

def isScalar : Tree → Bool
  | scalar _ => true
  | _ => false

def scalarFault? : Tree → Option ReadFault
  | scalar (.error f) => some f
  | _ => none

/-- The fault of a key, or else of a scalar as its value. -/
def pairFault? (p : Except ReadFault String × Tree) : Option ReadFault :=
  match p.1 with
  | .error f => some f
  | .ok _ => p.2.scalarFault?

/-- The first fault that filling a tree meets on the level below it. -/
def ownFault? : Tree → Option ReadFault
  | scalar (.error f) => some f
  | scalar (.ok _) => none
  | sequence items => items.findSome? scalarFault?
  | mapping pairs => pairs.findSome? pairFault?
  | faulty => some .malformed

/-- The sequences and mappings on the level below a tree. -/
def parts : Tree → List Tree
  | sequence items => items.filter (!·.isScalar)
  | mapping pairs => (pairs.map (·.2)).filter (!·.isScalar)
  | scalar _ | faulty => []

/-- The first fault, level by level, down to some depth. -/
def firstFault? : Nat → List Tree → Option ReadFault
  | 0, _ => none
  | depth + 1, level => (level.findSome? ownFault?).or (firstFault? depth (level.flatMap parts))

mutual

/-- The value of a tree without faults. -/
def value : Tree → Value
  | scalar (.ok v) => v
  | sequence items => .list (values items)
  | mapping pairs => .record (ofPairs (fields pairs))
  | scalar (.error _) | faulty => .null
termination_by structural t => t

def values : List Tree → List Value
  | [] => []
  | t :: ts => t.value :: values ts
termination_by structural ts => ts

def fields : List (Except ReadFault String × Tree) → List (String × Value)
  | [] => []
  | p :: ps =>
    match p.1 with
    | .ok name => (name, p.2.value) :: fields ps
    | .error _ => fields ps
termination_by structural ps => ps

end

end Tree

mutual

/-- What the scalars and keys of a node stand for. -/
def Node.tree : Node → Tree
  | .scalar text plain => .scalar (scalarValue text plain)
  | .sequence items => .sequence (trees items)
  | .mapping pairs => .ofPairs? (pairTrees? pairs)
termination_by structural n => n

def trees : List Node → List Tree
  | [] => []
  | n :: ns => n.tree :: trees ns
termination_by structural ns => ns

/-- The pairs that are taken over, and a mapping's own. -/
def pairTrees? : List (Node × Node) → Option (Tree.Pairs × Tree.Pairs)
  | [] => some ([], [])
  | p :: ps =>
    if isMergeKey p.1 then do
      let more ← p.2.tree.takenOver?
      let (taken, own) ← pairTrees? ps
      return (more ++ taken, own)
    else do
      let (taken, own) ← pairTrees? ps
      return (taken, (fieldName p.1, p.2.tree) :: own)
termination_by structural ps => ps

end

/-- The document of a text. No part of a text is deeper than the text is long. -/
def read (text : String) : Except ReadFault (Option Value) := do
  match ← readable (Node.ofTokens? (← tokens text)) with
  | none => return none
  | some node =>
    match Tree.firstFault? (text.length + 1) [node.tree] with
    | some f => throw f
    | none => return some node.tree.value

end EntityQuery.Yaml
