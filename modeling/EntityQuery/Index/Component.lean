import EntityQuery.Index

/-!
# Index components — what part of an index has to look like

A query asks of an index that some of its properties stand in a given order and direction (the
sorts), and that others stand there in any order and direction (presence tests and groups).
Geospatial properties serve neither.
-/

namespace EntityQuery

inductive IndexComponent where
  /-- Exactly these properties; one without a direction may have either. -/
  | ordered (properties : List IndexProperty)
  /-- These names, in any order. A name counts once however often it is given. -/
  | unordered (names : List String)
deriving Repr

namespace IndexComponent

/-- How many properties an index needs for a component. -/
def size : IndexComponent → Nat
  | .ordered properties => properties.length
  | .unordered names => names.eraseDups.length

/-- Whether a property of an index is as wanted. -/
def serves (wanted candidate : IndexProperty) : Bool :=
  !candidate.isGeospatial && candidate.name == wanted.name
    && (wanted.direction.isNone || candidate.direction == wanted.direction)

/-- Whether properties of an index satisfy a component. -/
def accepts (c : IndexComponent) (candidates : List IndexProperty) : Bool :=
  candidates.length == c.size &&
    match c with
    | .ordered properties => (properties.zip candidates).all fun (p, q) => serves p q
    | .unordered names =>
      !candidates.any IndexProperty.isGeospatial
        && candidates.all (fun p => names.contains p.name)
        && names.all ((candidates.map IndexProperty.name).contains ·)

/-- The properties that an index made for a component has: the names of an unordered one in
    alphabetical order, and ascending where the direction does not matter. -/
def preferred : IndexComponent → List IndexProperty
  | .ordered properties =>
    properties.map fun p => { name := p.name, direction := some (p.direction.getD .ascending) }
  | .unordered names => (names.eraseDups.mergeSort (· ≤ ·)).map .ascending

end IndexComponent

end EntityQuery
