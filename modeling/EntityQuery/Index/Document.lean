import EntityQuery.Index
import EntityQuery.Query.Selectors
import EntityQuery.Yaml.Document

/-!
# Index definitions — indexes as documents

An index is written as a record of its kind, its ancestor flag and its properties, each of them a
record of name, direction and mode. Reading takes several spellings of flags, directions and modes;
writing leaves out what a reader of catalogs fills in again: no ancestor, ascending directions, and
an empty list of properties.

An entry of a catalog is read with one more rule: a property with neither direction nor mode is
ascending.

* **`Index.read?`**, **`Index.document`** — a definition as it stands.
* **`Index.ofEntry`** — an entry of a catalog.
-/

namespace EntityQuery

namespace IndexProperty

def read? : Value → Option IndexProperty
  | .record fields => do
    if !Value.hasOnly ["name", "direction", "mode"] fields then none
    let name ← (← Value.field? fields "name").asText?
    let direction ←
      Value.readField? fields "direction" none (Value.asOptional? Direction.read?)
    let mode ←
      Value.readField? fields "mode" none (Value.asOptional? (Value.asWord? [] IndexMode.ofWord?))
    return ⟨name, direction, mode⟩
  | _ => none

/-- The record of a property. -/
def document (p : IndexProperty) : Value :=
  .record ([("name", .text p.name)]
    ++ (if p.direction = some .descending then [("direction", .text "desc")] else [])
    ++ (match p.mode with
      | some mode => [("mode", .text mode.word)]
      | none => []))

end IndexProperty

namespace Index

/-- A flag of which the words of yes and no may have white space around them. -/
def readAncestor? (v : Value) : Option Bool :=
  match v with
  | .text s =>
    let word := Text.cleaned s
    if word = "yes" || word = "true" then some true
    else if word = "no" || word = "false" then some false
    else v.asFlag?
  | _ => v.asFlag?

def read? : Value → Option Index
  | .record fields => do
    if !Value.hasOnly ["kind", "ancestor", "properties"] fields then none
    let kind ← Value.readField? fields "kind" none (Value.asOptional? Value.asText?)
    let ancestor ← Value.readField? fields "ancestor" false readAncestor?
    let properties ←
      Value.readField? fields "properties" [] (Value.asListOf? IndexProperty.read?)
    return ⟨kind, ancestor, properties⟩
  | _ => none

/-- The index that a document defines. -/
def ofDocument (document : Value) : Except Fault Index :=
  match read? document with
  | some index => .ok index
  | none => .error .malformedIndex

/-- The record of an index. -/
def document (index : Index) : Value :=
  .record ([("kind", match index.kind with
        | some kind => .text kind
        | none => .null)]
    ++ (if index.ancestor then [("ancestor", .text "yes")] else [])
    ++ (if index.properties.isEmpty then []
      else [("properties", .list (index.properties.map IndexProperty.document))]))

/-! ## Entries of a catalog -/

/-- A property of an entry, ascending if it has neither direction nor mode. -/
def completeProperty : Value → Value
  | .record fields =>
    if (Value.fieldOrNull fields "direction").isNull && (Value.fieldOrNull fields "mode").isNull
    then .record (Yaml.setField "direction" (.text "asc") fields)
    else .record fields
  | v => v

/-- The properties of an entry: those of a list, none where nothing is written, and for other
    collections their members, none of which is a property. -/
def entryProperties (fields : List (String × Value)) : Except Fault (List Value) :=
  let properties := Value.fieldOrNull fields "properties"
  if !properties.isPresent then .ok []
  else
    match properties with
    | .list items => .ok (items.map completeProperty)
    | .text s => .ok (s.toList.map fun c => .text (String.singleton c))
    | .bytes octets => .ok (octets.map fun o => .int o.toNat)
    | .record members => .ok (members.map fun f => .text f.1)
    | _ => .error .propertiesNotCollection

/-- The index of a catalog's entry. -/
def ofEntry (path : Option String) (position : Nat) : Value → Except Fault Index
  | .record fields => do
    let properties ← entryProperties fields
    match read? (.record (Yaml.setField "properties" (.list properties) fields)) with
    | some index => return index
    | none => throw (.catalog path (.entryInvalid position))
  | _ => .error (.catalog path (.entryNotMapping position))

end Index

end EntityQuery
