import EntityQuery.Filter

/-!
# Queries — kind, filter, sort orders and modifiers

A query asks for the entities of a kind (or of any kind) that pass a filter and lie below an
ancestor, in a given order. It may ask for the keys alone, for some properties, or for groups.
-/

namespace EntityQuery

inductive Direction where
  | ascending
  | descending
deriving DecidableEq, Repr

namespace Direction

def word : Direction → String
  | .ascending => "asc"
  | .descending => "desc"

/-- The direction with this spelling. -/
def ofWord? (word : String) : Option Direction := [ascending, descending].find? (·.word == word)

def reverse : Direction → Direction
  | .ascending => .descending
  | .descending => .ascending

/-- An order of values read in a direction. -/
def apply : Direction → Ordering → Ordering
  | .ascending, o => o
  | .descending, o => o.swap

end Direction

/-- The property that holds an entity's key, unless it is named otherwise. -/
def defaultKeyProperty : String := "__key__"

/-- A property to sort by. -/
structure SortOrder where
  property  : String
  direction : Direction := .ascending
deriving DecidableEq, Repr

/-- The same property in the other direction. -/
def SortOrder.reverse (s : SortOrder) : SortOrder := { s with direction := s.direction.reverse }

structure Query where
  kind       : Option String := none
  filter     : Option Filter := none
  sorts      : List SortOrder := []
  ancestor   : Option Key := none
  groupBy    : List String := []
  projection : List String := []
  keysOnly   : Bool := false
deriving Repr

namespace Query

def hasAncestor (q : Query) : Bool := q.ancestor.isSome

def hasSort (q : Query) : Bool := !q.sorts.isEmpty

/-- The predicates of a query whose filter holds no OR. -/
def predicates (q : Query) : Except Fault (List Predicate) :=
  match q.filter with
  | none => .ok []
  | some f => f.conjuncts

/-- The query that asks for all of these predicates instead of its filter. -/
def withPredicates (q : Query) (ps : List Predicate) : Query :=
  { q with filter := Filter.allOf? ps }

def withSorts (q : Query) (sorts : List SortOrder) : Query := { q with sorts := sorts }

end Query

end EntityQuery
