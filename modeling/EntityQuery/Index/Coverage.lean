import EntityQuery.Index.Need

/-!
# Coverage — what declared indexes leave to be indexed

A declared index serves a query in part if it has the query's kind, ends in properties that match
the query's postfix, and lists before them only properties that bear equalities; an index for
queries below an ancestor serves only such queries. Indexes that end in the very same properties
serve together: what none of them names of the equalities, and the ancestor if none of them has it,
*remains*.

When nothing remains for some ending, the query needs no further index. Otherwise the least index to
add is made of what remains for the ending that leaves least; an ancestor that remains weighs as
much as the settings say.

* **`NormalForm.matchPostfix`** — how many properties stand before the postfix in an index.
* **`NormalForm.minimalIndex`** — the least index to add to those declared.
-/

namespace EntityQuery

/-- What indexes with one ending leave uncovered. -/
structure Remainder where
  equalities : List String
  ancestor   : Bool
deriving DecidableEq, Repr

namespace Remainder

def isNothing (r : Remainder) : Bool := r.equalities.isEmpty && !r.ancestor

/-- The number of equalities, and the weight of the ancestor. -/
def cost (ancestorCost : Nat) (r : Remainder) : Nat :=
  r.equalities.length + if r.ancestor then ancestorCost else 0

/-- What is left when an index with these leading properties is there too. -/
def without (r : Remainder) (leading : List IndexProperty) (ancestor : Bool) : Remainder where
  equalities := r.equalities.filter fun name => !leading.any (·.name == name)
  ancestor := r.ancestor && !ancestor

end Remainder

/-- Endings, and what remains for each, in the order in which they are first of use. -/
abbrev Remainders := List (List IndexProperty × Remainder)

namespace Remainders

/-- Set what remains for an ending. -/
def put (ending : List IndexProperty) (r : Remainder) : Remainders → Remainders
  | [] => [(ending, r)]
  | e :: es => if e.1 = ending then (ending, r) :: es else e :: put ending r es

/-- The first ending that leaves least. -/
def best? (ancestorCost : Nat) : Remainders → Option (List IndexProperty × Remainder)
  | [] => none
  | e :: es =>
    match best? ancestorCost es with
    | none => some e
    | some b => if b.2.cost ancestorCost < e.2.cost ancestorCost then some b else some e

end Remainders

namespace NormalForm

/-- The number of properties before those that match a component at the end of a list. -/
def matchEnd (c : IndexComponent) (properties : List IndexProperty) : Option Nat :=
  let start := properties.length - c.size
  if c.accepts (properties.drop start) then some start else none

/-- The number of properties of an index before those that match the postfix. -/
def matchPostfix (n : NormalForm) (properties : List IndexProperty) : Option Nat := do
  let middle ← matchEnd n.unorderedPostfix properties
  matchEnd n.orderedPostfix (properties.take middle)

/-- The leading properties and the ending of an index that serves a query. -/
def serve? (n : NormalForm) (index : Index) : Option (List IndexProperty × List IndexProperty) := do
  if index.kind ≠ n.kind || (index.ancestor && !n.hasAncestor) then none
  let split ← n.matchPostfix index.properties
  let leading := index.properties.take split
  if leading.all fun p => n.equalities.contains p.name then
    some (leading, index.properties.drop split)
  else none

/-- What remains when no index is declared. -/
def wholeRemainder (n : NormalForm) : Remainder := ⟨n.equalities, n.hasAncestor⟩

/-- Take the declared indexes into account one by one: nothing as soon as nothing remains for some
    ending, else what remains for each ending that helps. -/
def remainders (n : NormalForm) : Remainders → List Index → Option Remainders
  | rs, [] => some rs
  | rs, index :: rest =>
    match n.serve? index with
    | none => remainders n rs rest
    | some (leading, ending) =>
      let current := (rs.lookup ending).getD n.wholeRemainder
      let left := current.without leading index.ancestor
      if left.isNothing then none
      else if left = current then remainders n rs rest
      else remainders n (rs.put ending left) rest

/-- The index that covers a remainder. -/
def indexFor (n : NormalForm) (ending : List IndexProperty) (r : Remainder) : Index where
  kind := n.kind
  ancestor := r.ancestor
  properties := (sortedNames r.equalities).map .ascending ++ ending

/-- The least index to add to those declared, if one has to be added. -/
def minimalIndex (n : NormalForm) (ancestorCost : Nat) (declared : List Index) : Option Index :=
  match n.neededIndex with
  | none => none
  | some needed =>
    if n.isGeospatial then some needed
    else
      match n.remainders [] declared with
      | none => none
      | some rs =>
        match rs.best? ancestorCost with
        | none => some needed
        | some (ending, r) => some (n.indexFor ending r)

end NormalForm

end EntityQuery
