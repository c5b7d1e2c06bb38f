import EntityQuery.Filter.Clauses
import EntityQuery.Query
import EntityQuery.Sorting
import EntityQuery.Value.Order

/-!
# Components — one property's values cut into pieces

A component replaces a test that the backend does not have. Each of its pieces is a clause that
selects part of what the test selects, and the pieces together select all of it. A component on a
property that the query sorts by knows the position and the direction of that sort.
-/

namespace EntityQuery

/-- A comparison as a test of one value being before another. -/
def Comparator.before (cmp : Comparator) (a b : Value) : Except Fault Bool :=
  return (← cmp a b) == .lt

/-- Values in a direction, equal ones as they stood. -/
def Value.sorted (cmp : Comparator) : Direction → List Value → Except Fault (List Value)
  | .ascending, vs => Sorting.sort cmp.before vs
  | .descending, vs => Sorting.sortFalling cmp.before vs

/-- Where a property is sorted by first, and in which direction. -/
def SortOrder.position? (sorts : List SortOrder) (property : String) : Option (Nat × Direction) :=
  match sorts with
  | [] => none
  | s :: rest =>
    if s.property = property then some (0, s.direction)
    else (position? rest property).map fun (i, d) => (i + 1, d)

structure Component where
  property  : String
  position  : Option Nat := none
  direction : Option Direction := none
  pieces    : List Clause
deriving Repr

namespace Component

/-- The component of these pieces in a query with these sorts. -/
def of (property : String) (sorts : List SortOrder) (pieces : List Clause) : Component :=
  let found := SortOrder.position? sorts property
  ⟨property, found.map (·.1), found.map (·.2), pieces⟩

def isSorted (c : Component) : Bool := c.position.isSome

/-- Components by position, unsorted ones last. -/
def notAfter (a b : Component) : Bool :=
  match a.position, b.position with
  | some i, some j => i ≤ j
  | some _, none => true
  | none, some _ => false
  | none, none => true

end Component

/-- What splitting a clause gives: components, and the predicates they replace. -/
structure Splitting where
  components : List Component := []
  consumed   : List Predicate := []

namespace Splitting

/-- Whether a predicate is replaced. A record cannot be looked for. -/
def consumes (s : Splitting) (p : Predicate) : Except Fault Bool :=
  if p.keyable then .ok (s.consumed.contains p) else .error .recordInSet

/-- The predicates of a clause that are left. -/
def remainder (s : Splitting) (c : Clause) : Except Fault Clause :=
  if s.consumed.isEmpty then .ok c
  else if c.all Predicate.keyable then .ok (c.filter fun p => !s.consumed.contains p)
  else .error .recordInSet

end Splitting

end EntityQuery
