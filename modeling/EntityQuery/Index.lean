import EntityQuery.Query

/-!
# Indexes — the properties that a composite index lists

A composite index serves queries of one kind (or of any kind) that ask for certain properties in a
certain order. A property has a direction, or none when its order does not matter, and may be
geospatial.
-/

namespace EntityQuery

inductive IndexMode where
  | geospatial
deriving DecidableEq, Repr

namespace IndexMode

def word : IndexMode → String
  | .geospatial => "geospatial"

/-- The mode with this spelling. -/
def ofWord? (word : String) : Option IndexMode := [geospatial].find? (·.word == word)

end IndexMode

structure IndexProperty where
  name      : String
  direction : Option Direction := none
  mode      : Option IndexMode := none
deriving DecidableEq, Repr

namespace IndexProperty

def ascending (name : String) : IndexProperty := { name := name, direction := some .ascending }

def isGeospatial (p : IndexProperty) : Bool := p.mode == some .geospatial

end IndexProperty

structure Index where
  kind       : Option String := none
  /-- Whether the index serves queries below an ancestor, and only those. -/
  ancestor   : Bool := false
  properties : List IndexProperty := []
deriving DecidableEq, Repr

end EntityQuery
