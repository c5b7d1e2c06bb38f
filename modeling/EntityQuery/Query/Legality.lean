import EntityQuery.Query

/-!
# Legality — which conjunctive queries the backend runs

A query is legal when its projection and its grouping are well formed, its filter is a conjunction
of tests the backend has, and these agree with each other: one property at most bears inequalities
and it is the first sort, properties that are projected or grouped bear no equality, tests on the
key ask for keys, and containment in a region goes with neither an inequality nor an ancestor.

The rules are looked at in a fixed order, and the first that is broken is the report. Among the
predicates, each is put to all rules on single predicates before the next one is looked at.

* **`Query.check`** — nothing, or the first rule that is broken.
-/

namespace EntityQuery

/-- A name the backend keeps for itself: something between two underlines on either side. -/
def isReserved (name : String) : Bool :=
  4 < name.length && name.startsWith "__" && name.endsWith "__"

/-- The names that stand more than once, each once, in the order of their second occurrence. -/
def repeated (names : List String) : List String :=
  let rec go (seen : List String) : List String → List String
    | [] => []
    | n :: ns => if seen.contains n then n :: go seen ns else go (n :: seen) ns
  (go [] names).eraseDups

namespace Query

def checkProjection (q : Query) : Except Illegality Unit :=
  if !(repeated q.projection).isEmpty then .error (.repeatedProjection (repeated q.projection))
  else if !q.projection.isEmpty && q.keysOnly then .error .projectionKeysOnly
  else .ok ()

/-- Whether no sort on a grouped property comes after a sort on another one. -/
def groupedSortsFirst (groupBy : List String) (sorts : List SortOrder) : Bool :=
  !(sorts.dropWhile (groupBy.contains ·.property)).any (groupBy.contains ·.property)

def checkGrouping (q : Query) : Except Illegality Unit :=
  if !(repeated q.groupBy).isEmpty then .error (.repeatedGrouping (repeated q.groupBy))
  else
    match q.groupBy.find? isReserved with
    | some name => .error (.reservedGrouping name)
    | none =>
      if q.groupBy.isEmpty || groupedSortsFirst q.groupBy q.sorts then .ok ()
      else .error .groupingSortsFirst

/-- Without a kind only the key can be asked about, and only ascending keys be sorted by. -/
def checkKindless (q : Query) (keyProperty : String) (ps : List Predicate) :
    Except Illegality Unit :=
  if q.kind.isSome then .ok ()
  else if ps.any (·.property != keyProperty) then .error .kindlessFilter
  else if q.sorts.any (· != ⟨keyProperty, .ascending⟩) then .error .kindlessSort
  else .ok ()

/-- The rules that look at one predicate: the operators the backend has, the one property that
    bears inequalities (`inequality` is the one met so far), equalities on projected or grouped
    properties, and the values a key is compared with. The inequality property from here on. -/
def checkPredicate (q : Query) (keyProperty : String) (inequality : Option String)
    (p : Predicate) : Except Fault (Option String) := do
  if p.isExclusion then throw (.illegal (.notEqual p.property))
  let choices ← p.choices?
  if (choices.map List.length).any (1 < ·) then throw (.illegal (.manyValued p.property))
  let inequality ←
    if p.isInequality then
      match inequality with
      | none => pure (some p.property)
      | some other =>
        if other = p.property then pure inequality
        else throw (.illegal (.twoInequalities other p.property))
    else do
      if p.isEquality || choices.isSome then
        if q.projection.contains p.property then
          throw (.illegal (.projectedEquality p.property))
        if q.groupBy.contains p.property then throw (.illegal (.groupedEquality p.property))
      pure inequality
  let asked := match p.test with
    | .oneOf vs => vs
    | t => [t.value]
  let areKeys := asked.all fun
    | .key _ => true
    | _ => false
  if p.property = keyProperty && !p.isPresence && !areKeys then
    throw (.illegal (.keyValue keyProperty))
  return inequality

def checkPredicates (q : Query) (keyProperty : String) :
    Option String → List Predicate → Except Fault (Option String)
  | inequality, [] => .ok inequality
  | inequality, p :: ps => do
    checkPredicates q keyProperty (← checkPredicate q keyProperty inequality p) ps

/-- The rules on the inequality property as a whole. -/
def checkInequality (q : Query) (property : String) : Except Illegality Unit :=
  if !q.groupBy.isEmpty && !q.groupBy.contains property then .error (.ungroupedInequality property)
  else
    match q.sorts with
    | s :: _ =>
      if s.property ≠ property then .error (.inequalitySort s.property property) else .ok ()
    | [] => .ok ()

def isContainment (p : Predicate) : Bool :=
  match p.test with
  | .inside _ => true
  | _ => false

/-- Whether a conjunctive query is legal: nothing, or the first rule that is broken. -/
def check (q : Query) (keyProperty : String) : Except Fault Unit := do
  q.checkProjection.mapError .illegal
  q.checkGrouping.mapError .illegal
  let ps ← q.predicates.mapError fun _ => .illegal .disjunction
  (q.checkKindless keyProperty ps).mapError .illegal
  let inequality ← q.checkPredicates keyProperty none ps
  if ps.any isContainment && (inequality.isSome || q.hasAncestor) then
    throw (.illegal .regionCombined)
  match inequality with
  | some property => (q.checkInequality property).mapError .illegal
  | none => .ok ()

end Query

end EntityQuery
