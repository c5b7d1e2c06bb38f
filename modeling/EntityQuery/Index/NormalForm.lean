import EntityQuery.Index.Component

/-!
# Normal forms — what of a query an index must cover

Much of a conjunctive query needs no index. Membership in a single value is an equality, a repeated
test counts once, and a sort on a property that an equality fixes, or that is sorted by already,
changes nothing; neither does any sort after one on the key. The backend sorts by ascending key by
itself and finds entities by key by itself, unless a presence test is there.

What is left has an equality *prefix*, and a *postfix* of sorts in their order and of presence tests
and groups in any order. Inequalities must be on one property, which is sorted by first; when
nothing is sorted by, an ascending sort on it is put there.

* **`NormalForm.ofQuery`** — the normal form, or the fault that the query has none.
-/

namespace EntityQuery

structure NormalForm where
  kind            : Option String
  hasAncestor     : Bool
  filters         : List Predicate
  sorts           : List SortOrder
  /-- The properties that bear equalities. -/
  equalities      : List String
  /-- The properties that presence tests and groups need, and no sort has. -/
  unordered       : List String
  /-- The properties that are asked to lie in a region. -/
  regions         : List String
  hasKeyProperty  : Bool
  equalityCount   : Nat
deriving Repr

namespace NormalForm

def isGeospatial (n : NormalForm) : Bool := !n.regions.isEmpty

def hasKind (n : NormalForm) : Bool := n.kind.isSome

/-- The sorts as properties of an index. -/
def sortProperties (n : NormalForm) : List IndexProperty :=
  n.sorts.map fun s => { name := s.property, direction := some s.direction }

/-- The sorts, in their order. -/
def orderedPostfix (n : NormalForm) : IndexComponent := .ordered n.sortProperties

/-- The other properties that an index must have, in any order. -/
def unorderedPostfix (n : NormalForm) : IndexComponent := .unordered n.unordered

/-! ## Tests and sorts that change nothing -/

/-- Membership in a single value as an equality. -/
def simplify (p : Predicate) : Except Fault Predicate := do
  match ← p.choices? with
  | some [v] => return .equals p.property v
  | _ => return p

/-- The tests of a query, simplified, each once. -/
def simplifiedFilters (q : Query) : Except Fault (List Predicate) := do
  Predicate.distinct (← (← q.predicates).mapM simplify)

def propertiesWith (test : Predicate → Bool) (ps : List Predicate) : List String :=
  (ps.filter test).map Predicate.property

/-- The sorts that matter, given the properties already sorted by. -/
def effectiveSorts (keyProperty : String) (fixed : String → Bool) :
    List String → List SortOrder → List SortOrder
  | _, [] => []
  | seen, s :: rest =>
    if seen.contains s.property || fixed s.property then effectiveSorts keyProperty fixed seen rest
    else if s.property = keyProperty then [s]
    else s :: effectiveSorts keyProperty fixed (s.property :: seen) rest

/-- The sorts of a query that matter under its tests. An equality on the key leaves one entity at
    most, and nothing to sort; one on another property fixes it, unless it also bears an inequality,
    whose property has to stay sorted by. -/
def simplifiedSorts (keyProperty : String) (ps : List Predicate) (sorts : List SortOrder) :
    List SortOrder :=
  let equal := propertiesWith Predicate.isEquality ps
  let unequal := propertiesWith Predicate.isInequality ps
  if equal.contains keyProperty then []
  else effectiveSorts keyProperty (fun n => equal.contains n && !unequal.contains n) [] sorts

/-- The groups of a query whose properties no equality fixes. -/
def simplifiedGroups (ps : List Predicate) (groupBy : List String) : List String :=
  groupBy.eraseDups.filter (!(propertiesWith Predicate.isEquality ps).contains ·)

/-! ## What the backend does by itself -/

/-- The sorts without an ascending sort on the key at the end. -/
def withoutKeySort (keyProperty : String) (sorts : List SortOrder) : List SortOrder :=
  if sorts.getLast? = some ⟨keyProperty, .ascending⟩ then sorts.dropLast else sorts

/-- Whether tests on the key have to stay: next to an inequality on another property, and under a
    descending sort on the key at the end. -/
def needsKeyFilters (keyProperty : String) (ps : List Predicate) (sorts : List SortOrder) : Bool :=
  ps.any (fun p => p.isInequality && p.property != keyProperty)
    || sorts.getLast? == some ⟨keyProperty, .descending⟩

/-- Tests and sorts without what the backend does by itself. -/
def stripKey (keyProperty : String) (ps : List Predicate) (sorts : List SortOrder) :
    List Predicate × List SortOrder :=
  if ps.any Predicate.isPresence then (ps, sorts)
  else
    let sorts := withoutKeySort keyProperty sorts
    if needsKeyFilters keyProperty ps sorts then (ps, sorts)
    else (ps.filter (·.property != keyProperty), sorts)

/-! ## The normal form -/

/-- Whether a test fixes a property, or fixes it to one of several values. -/
def isEquality (p : Predicate) : Bool :=
  match p.test with
  | .relation .equal _ | .oneOf _ => true
  | _ => false

def isRegion (p : Predicate) : Bool :=
  match p.test with
  | .inside _ => true
  | _ => false

/-- The sorts with the inequality property at their head. -/
def anchorSorts (inequalities : List String) (sorts : List SortOrder) :
    Except Fault (List SortOrder) :=
  match inequalities, sorts with
  | first :: second :: _, _ => .error (.twoInequalities first second)
  | [], sorts => .ok sorts
  | [name], [] => .ok [⟨name, .ascending⟩]
  | [name], s :: rest =>
    if s.property = name then .ok (s :: rest) else .error (.inequalitySort s.property name)

/-- The normal form of a conjunctive query. -/
def ofQuery (q : Query) (keyProperty : String) : Except Fault NormalForm := do
  let simplified ← simplifiedFilters q
  let groups := simplifiedGroups simplified q.groupBy
  let (filters, sorts) :=
    stripKey keyProperty simplified (simplifiedSorts keyProperty simplified q.sorts)
  if let some p := filters.find? Predicate.isExclusion then
    throw (.unclassified p.test.operator.word)
  let hasKeyProperty :=
    filters.any (·.property == keyProperty) || sorts.any (·.property == keyProperty)
  let sorts ← anchorSorts (propertiesWith Predicate.isInequality filters).eraseDups sorts
  let others := (propertiesWith Predicate.isPresence filters ++ groups).eraseDups
  return {
    kind := q.kind
    hasAncestor := q.hasAncestor
    filters := filters
    sorts := sorts
    equalities := (propertiesWith isEquality filters).eraseDups
    unordered := others.filter fun name => !sorts.any (·.property == name)
    regions := (propertiesWith isRegion filters).eraseDups
    hasKeyProperty := hasKeyProperty
    equalityCount := (filters.filter isEquality).length }

end NormalForm

end EntityQuery
