import EntityQuery.Execution.Distinct
import EntityQuery.Execution.Entity
import EntityQuery.Execution.Groups
import EntityQuery.Fanout.Plan

/-!
# Execution — the combined results of plans

The plans of a query are read as sources, several of them merged in the query's order, and a result
is given once although several concrete queries may find it. Results are told apart by key, and the
rows of a projection also by their projected and sorted values, since one entity has a row for each
index entry.

Reading is lazy: a group of queries is asked when one of its rows is wanted. A query for keys alone
whose answers have to be merged can be sorted by key only, because nothing else is there to compare.
-/

namespace EntityQuery

variable {α : Type}

/-- Whether answers have to be merged in memory. -/
def needsMerge : List Plan → Bool
  | [] => false
  | [p] => 1 < p.parallelSize
  | _ => true

/-- The first sort of a query that is not on the key, if keys are all there is to compare. -/
def unsortable? (keyProperty : String) (plans : List Plan) (q : Query) : Option SortOrder :=
  if q.keysOnly && needsMerge plans then q.sorts.find? (·.property != keyProperty) else none

/-- The properties that tell rows of one entity apart: those projected, then those sorted by. -/
def Query.rowProperties (q : Query) : List String :=
  q.projection ++ (q.sorts.map SortOrder.property).filter (!q.projection.contains ·)

/-- What tells results apart. -/
def Query.identity (q : Query) (access : Access α) (entity : α) : Except Fault (List Value) := do
  if q.projection.isEmpty then return [← access.keyOf entity]
  else
    let values ← q.rowProperties.mapM (access.valueOf entity)
    return (← access.keyOf entity) :: values

/-- The combined results of plans of one query, at most `limit` of them, and the queries asked. -/
def run (plans : List Plan) (execute : Executor α) (access : Access α) (cmp : Comparator)
    (keyProperty : String) (limit : Option Nat) : Except Fault (Collected α × Log) :=
  match plans with
  | [] => .ok (Source.rows.collect limit [] [])
  | first :: rest =>
    let q := first.query
    match unsortable? keyProperty plans q with
    | some s => .error (.keysOnlySort keyProperty s.property)
    | none =>
      let order := access.compare cmp q.sorts
      let plan := Source.groups execute order
      let pending (p : Plan) : Pending α := { groups := p.queryGroups }
      if rest.isEmpty then
        .ok ((plan.distinct (q.identity access)).collect limit ⟨pending first, []⟩ [])
      else
        .ok (((plan.merge order).distinct (q.identity access)).collect limit
          ⟨Merge.of (plans.map pending), []⟩ [])

end EntityQuery
