import EntityQuery.Fanout.Component
import EntityQuery.Filter.Matching

/-!
# Entities — keys, values and order

How the key and the values of an entity are found is up to its representation, so it is given as an
`Access`. Entities are ordered by the sort orders of a query and then by key.
-/

namespace EntityQuery

/-- How the key and the values of an entity are found. -/
structure Access (α : Type) where
  keyOf   : α → Except Fault Value
  valueOf : α → String → Except Fault Value

namespace Access

/-- The key of an entity as the field of a name. -/
def keyField (field : String) (entity : Fields) : Except Fault Value :=
  match Value.field? entity field with
  | some v => .ok v
  | none => .error (.missingKey field)

/-- Entities as records: the key is a field that must be there, other values may be missing. -/
def fields (keyProperty : String) : Access Fields where
  keyOf := keyField keyProperty
  valueOf entity property :=
    if property = keyProperty then keyField keyProperty entity
    else .ok (Value.fieldOrNull entity property)

/-- Entities that carry their own key. -/
def keyed (keyProperty : String) : Access Fields :=
  let keyOf (entity : Fields) : Except Fault Value :=
    match Value.field? entity "key" with
    | some v => .ok v
    | none => .error .keyless
  { keyOf := keyOf
    valueOf := fun entity property =>
      if property = keyProperty then keyOf entity
      else .ok (Value.fieldOrNull entity property) }

variable {α : Type}

/-- Entities by their keys. -/
def compareKeys (access : Access α) (cmp : Comparator) (a b : α) : Except Fault Ordering := do
  let x ← access.keyOf a
  cmp x (← access.keyOf b)

/-- Entities by sort orders, then by key ascending. -/
def compare (access : Access α) (cmp : Comparator) : List SortOrder → α → α → Except Fault Ordering
  | [], a, b => access.compareKeys cmp a b
  | s :: rest, a, b => do
    let x ← access.valueOf a s.property
    let y ← access.valueOf b s.property
    match ← cmp x y with
    | .eq => access.compare cmp rest a b
    | o => return s.direction.apply o

/-- Entities sorted, equal ones as they stood. -/
def sort (access : Access α) (cmp : Comparator) (sorts : List SortOrder) (entities : List α) :
    Except Fault (List α) :=
  Sorting.sort (fun a b => return (← access.compare cmp sorts a b) == .lt) entities

end Access

/-- The entities that answer a query: those that satisfy its filter, in its order. -/
def Query.answer (q : Query) (entities : List Fields) : Except Fault (List Fields) := do
  let selected ← match q.filter with
    | none => pure entities
    | some f => Clause.select Value.compare (← f.clauses 64) entities
  (Access.fields defaultKeyProperty).sort Value.compare q.sorts selected

end EntityQuery
