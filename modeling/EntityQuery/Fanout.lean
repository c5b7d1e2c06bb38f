import EntityQuery.Fanout.Plan
import EntityQuery.Fanout.Splitter
import EntityQuery.Settings

/-!
# Fanning out — a query as plans of native queries

Each clause of a query's filter becomes one plan. The splitters look at the clause in turn, each at
what the ones before it have left. The answers of all plans are merged in memory, each plan
contributing as many streams as its groups are wide; the sum must not be above the limit.
-/

namespace EntityQuery

namespace Query

/-- The clauses of a query's filter. A lone predicate is a clause as it stands. -/
def clauses (q : Query) (maxDepth : Nat) : Except Fault (List Clause) :=
  match q.filter with
  | none => .ok [[]]
  | some (.leaf p) => .ok [[p]]
  | some f => f.clauses maxDepth

end Query

/-- Split a clause by each splitter in turn: what is left, and the components. -/
def Splitter.splitAll (cmp : Comparator) (sorts : List SortOrder) :
    List Splitter → Clause → Except Fault (Clause × List Component)
  | [], c => .ok (c, [])
  | s :: ss, c => do
    let splitting ← s.split cmp sorts c
    let (left, components) ← splitAll cmp sorts ss (← splitting.remainder c)
    return (left, splitting.components ++ components)

/-- The plan of one clause. -/
def Plan.ofClause (cmp : Comparator) (splitters : List Splitter) (q : Query) (c : Clause) :
    Except Fault Plan := do
  let (left, components) ← Splitter.splitAll cmp q.sorts splitters c
  return Plan.of q left components q.hasSort

/-- How many streams the plans merge together. -/
def Plan.totalSize (plans : List Plan) : Nat := (plans.map Plan.parallelSize).foldr (· + ·) 0

/-- The plans of a query, unless they merge too many streams. -/
def Query.fanOut (q : Query) (splitters : List Splitter) (settings : Settings)
    (cmp : Comparator) : Except Fault (List Plan) := do
  let plans ← (← q.clauses settings.maxFilterDepth).mapM (Plan.ofClause cmp splitters q)
  let total := Plan.totalSize plans
  if settings.maxParallelQueries < total then
    throw (.fanOut total settings.maxParallelQueries)
  return plans

end EntityQuery
