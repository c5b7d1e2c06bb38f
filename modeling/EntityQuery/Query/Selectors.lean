import EntityQuery.Query
import EntityQuery.Value.Reading

/-!
# Selectors — queries written as documents

A query can be written as a record: its filter is a nested record of comparisons and logical
joins, a key is a record of kind and id (and perhaps parent and namespace), a region is a record of
centre and radius or of two corners, and sort orders are records of field and direction. Operators
and directions are looked up without regard to case and have some aliases.

Reading takes two steps. The shape of the whole document is read first (`Selection.read`), and
anything unexpected anywhere in it is one fault. Then the query is built (`Selection.toQuery`),
the filter from left to right; here the value of a comparison is read by its shape and its
operator, and the faults of keys, regions and filters arise. Comparisons are numbered from the
left, for a radius can be written as the text of a NaN, and no two of these are one value.

* **`Query.ofSelectors`** — both steps.
-/

namespace EntityQuery

/-! ## Keys -/

namespace Key

/-- What has been read of a key so far. -/
structure Parts where
  kind   : Option String := none
  id     : Option KeyId := none
  parent : Option Key := none
  space  : String := ""

/-- The key with these parts; kind and id are needed. -/
def Parts.toKey? (parts : Parts) : Option Key :=
  return Key.under parts.parent parts.space (← parts.kind) (← parts.id)

/-- An id keeps the type it is written in; other values stand for a number if they can. -/
def readId? : Value → Option KeyId
  | .text s => some (.name s)
  | v => (KeyId.number <$> v.asInteger?).or (KeyId.name <$> v.asText?)

mutual

/-- The key that a record spells. -/
def read? : Value → Option Key
  | .record fields => do (← readParts? {} fields).toKey?
  | _ => none
termination_by structural v => v

/-- Read the fields of a key, in any order. -/
def readParts? (parts : Parts) : List (String × Value) → Option Parts
  | [] => some parts
  | f :: fs =>
    if f.1 = "kind" then do
      readParts? { parts with kind := some (← f.2.asText?) } fs
    else if f.1 = "id" then do
      readParts? { parts with id := some (← readId? f.2) } fs
    else if f.1 = "namespace" then do
      readParts? { parts with space := ← f.2.asText? } fs
    else if f.1 = "parent" then
      if f.2.isNull then readParts? parts fs
      else do readParts? { parts with parent := some (← read? f.2) } fs
    else none
termination_by structural fields => fields

end

end Key

/-! ## Regions -/

/-- The coordinates a region is written with. -/
structure RegionParts where
  center    : Option (List Double)
  radius    : Option Double
  southwest : Option (List Double)
  northeast : Option (List Double)

namespace RegionParts

/-- The coordinates that a record spells in the comparison with a number. -/
def read? (number : Nat) : Value → Option RegionParts
  | .record fields => do
    if !Value.hasOnly ["center", "radius_meters", "southwest", "northeast"] fields then none
    let double := Value.asDouble? (.comparison number)
    let corner (name : String) := Value.readField? fields name none
      (Value.asOptional? (Value.asListOf? double))
    return {
      center := ← corner "center"
      radius := ← Value.readField? fields "radius_meters" none (Value.asOptional? double)
      southwest := ← corner "southwest"
      northeast := ← corner "northeast" }
  | _ => none

/-- The point with a latitude and a longitude. -/
def point : List Double → Except Fault GeoPoint
  | [latitude, longitude] => GeoPoint.of latitude longitude
  | _ => .error .coordinateCount

/-- The circle if centre and radius are there, else the rectangle if both corners are. -/
def toRegion (parts : RegionParts) : Except Fault Value :=
  match parts.center, parts.radius, parts.southwest, parts.northeast with
  | some center, some radius, _, _ => do return .circle (← point center) radius
  | _, _, some southwest, some northeast => do
    return .rectangle (← point southwest) (← point northeast)
  | _, _, _, _ => .error .incompleteRegion

end RegionParts

/-! ## Filters -/

/-- A filter whose shape has been read and whose values have not. -/
inductive Selector where
  | comparison (property : String) (op : Operator) (value : Value)
  | logical (c : Connective) (parts : List Selector)

namespace Selector

def operatorAliases : List (String × String) :=
  [("==", "="), ("eq", "="), ("ne", "!="), ("neq", "!="), ("<>", "!="), ("lt", "<"),
    ("lte", "<="), ("gt", ">"), ("gte", ">="), ("within", "contained_in_region")]

def readComparison? (fields : List (String × Value)) : Option Selector := do
  if !Value.hasOnly ["type", "field", "op", "value"] fields then none
  let property ← (← Value.field? fields "field").asText?
  let op ← (← Value.field? fields "op").asWord? operatorAliases Operator.ofWord?
  return .comparison property op (Value.fieldOrNull fields "value")

def readConnective? (fields : List (String × Value)) : Option Connective := do
  if !Value.hasOnly ["type", "op", "clauses"] fields then none
  Value.readField? fields "op" .all (Value.asWord? [] Connective.ofWord?)

/-- Whether a record says that it is of a type. -/
def hasType (name : String) (fields : List (String × Value)) : Bool :=
  match Value.field? fields "type" with
  | some (.text s) => s == name
  | _ => false

mutual

/-- The selector that a record spells. It says itself which of the two forms it has. -/
def read? : Value → Option Selector
  | .record fields =>
    if hasType "comparison" fields then readComparison? fields
    else if hasType "logical" fields then do
      return .logical (← readConnective? fields) (← readParts? fields)
    else none
  | _ => none
termination_by structural v => v

/-- The parts of a logical join, from the field that holds them. -/
def readParts? : List (String × Value) → Option (List Selector)
  | [] => some []
  | f :: fs => if f.1 = "clauses" then readList? f.2 else readParts? fs
termination_by structural fields => fields

def readList? : Value → Option (List Selector)
  | .list items => readAll? items
  | _ => none
termination_by structural v => v

def readAll? : List Value → Option (List Selector)
  | [] => some []
  | v :: vs => do return (← read? v) :: (← readAll? vs)
termination_by structural vs => vs

end

/-- The value that the comparison with a number is made with: for containment a record is a region,
    and for other operators a record with a kind and an id is a key. -/
def comparedValue (number : Nat) : Operator → Value → Except Fault Value
  | .inside, .record fields =>
    match RegionParts.read? number (.record fields) with
    | some parts => parts.toRegion
    | none => .error .malformedSelectors
  | _, .record fields =>
    if (fields.lookup "kind").isSome && (fields.lookup "id").isSome then
      match Key.read? (.record fields) with
      | some key => .ok (.key key)
      | none => .error .malformedSelectors
    else .ok (.record fields)
  | _, v => .ok v

mutual

/-- The number of comparisons. -/
def size : Selector → Nat
  | .comparison _ _ _ => 1
  | .logical _ parts => sizes parts
termination_by structural s => s

def sizes : List Selector → Nat
  | [] => 0
  | s :: ss => s.size + sizes ss
termination_by structural ss => ss

end

mutual

/-- The filter that a selector stands for, when its comparisons are numbered from `number` on. -/
def toFilter (number : Nat) : Selector → Except Fault Filter
  | .comparison property op value => do
    let value ← comparedValue number op value
    return .leaf ⟨property, ← Test.of op value⟩
  | .logical c parts => do Filter.composite c (← toFilters number parts)
termination_by structural s => s

def toFilters (number : Nat) : List Selector → Except Fault (List Filter)
  | [] => .ok []
  | s :: ss => do return (← s.toFilter number) :: (← toFilters (number + s.size) ss)
termination_by structural ss => ss

end

end Selector

/-! ## Sort orders -/

def Direction.aliases : List (String × String) := [("ascending", "asc"), ("descending", "desc")]

def Direction.read? : Value → Option Direction := Value.asWord? aliases ofWord?

def SortOrder.read? : Value → Option SortOrder
  | .record fields => do
    if !Value.hasOnly ["field", "direction"] fields then none
    let property ← (← Value.field? fields "field").asText?
    return ⟨property, ← Value.readField? fields "direction" .ascending Direction.read?⟩
  | _ => none

/-! ## Queries -/

/-- A query whose shape has been read. -/
structure Selection where
  kind       : Option String
  filter     : Option Selector
  sorts      : List SortOrder
  ancestor   : Option Key
  groupBy    : List String
  projection : List String
  keysOnly   : Bool

namespace Selection

def fieldNames : List String :=
  ["kind", "filters", "order_by", "ancestor", "group_by", "projection", "keys_only"]

def read? : Value → Option Selection
  | .record fields => do
    if !Value.hasOnly fieldNames fields then none
    let names (field : String) :=
      Value.readField? fields field [] (Value.asListOf? Value.asText?)
    return {
      kind := ← Value.readField? fields "kind" none (Value.asOptional? Value.asText?)
      filter := ← Value.readField? fields "filters" none (Value.asOptional? Selector.read?)
      sorts := ← Value.readField? fields "order_by" [] (Value.asListOf? SortOrder.read?)
      ancestor := ← Value.readField? fields "ancestor" none (Value.asOptional? Key.read?)
      groupBy := ← names "group_by"
      projection := ← names "projection"
      keysOnly := ← Value.readField? fields "keys_only" false Value.asFlag? }
  | _ => none

def toQuery (s : Selection) : Except Fault Query := do
  let filter ← match s.filter with
    | none => pure none
    | some selector => some <$> selector.toFilter 0
  return {
    kind := s.kind
    filter := filter
    sorts := s.sorts
    ancestor := s.ancestor
    groupBy := s.groupBy
    projection := s.projection
    keysOnly := s.keysOnly }

end Selection

/-- The query that a document spells. -/
def Query.ofSelectors (document : Value) : Except Fault Query :=
  match Selection.read? document with
  | some selection => selection.toQuery
  | none => .error .malformedSelectors

end EntityQuery
