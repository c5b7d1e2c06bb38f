import EntityQuery.Index.NormalForm

/-!
# Needed indexes — the index a query asks for by itself

The full index of a normal form lists the equality properties by name, then the sorts in their
order, then what else has to be there, by name. With a region it lists the equality properties
without direction and then the geospatial ones.

Many queries need no composite index: those that ask for nothing, those of equalities alone (their
answers are found by joining the built-in indexes of single properties), and those that a single
built-in index serves.
-/

namespace EntityQuery

/-- Names in alphabetical order. -/
def sortedNames (names : List String) : List String := names.mergeSort (· ≤ ·)

namespace NormalForm

/-- All that an index of the normal form lists. -/
def neededProperties (n : NormalForm) : List IndexProperty :=
  if n.isGeospatial then
    (sortedNames n.equalities).map (fun name => { name := name })
      ++ (sortedNames n.regions).map fun name => { name := name, mode := some .geospatial }
  else
    (IndexComponent.unordered n.equalities).preferred
      ++ n.orderedPostfix.preferred ++ n.unorderedPostfix.preferred

/-- Whether a query asks for equalities alone. -/
def isJoin (n : NormalForm) : Bool :=
  n.hasKind && !n.equalities.isEmpty && n.equalityCount == n.filters.length
    && !n.hasKeyProperty && n.sorts.isEmpty

/-- Whether a built-in index of one property serves a query. The one on the key is ascending. -/
def isBuiltIn (n : NormalForm) : Bool :=
  n.hasKind && !n.hasAncestor && n.neededProperties.length ≤ 1 && !n.isGeospatial
    && (!n.hasKeyProperty ||
      match n.neededProperties with
      | [] => true
      | p :: _ => p.direction == some .ascending)

/-- The index that a query needs, if it needs one. -/
def neededIndex (n : NormalForm) : Option Index :=
  if n.filters.isEmpty && n.sorts.isEmpty then none
  else if n.isJoin || n.isBuiltIn then none
  else some { kind := n.kind, ancestor := n.hasAncestor, properties := n.neededProperties }

end NormalForm

end EntityQuery
