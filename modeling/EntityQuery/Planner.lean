import EntityQuery.Fanout
import EntityQuery.Index.Advice
import EntityQuery.Index.Coverage
import EntityQuery.Query.Legality

/-!
# Planning — native queries and the indexes they need

A query is fanned out into plans, and each concrete query is checked, brought into normal form and
asked for the index it needs. When the declared indexes are known, that is the least index to add to
them, along with a report; otherwise it is the full index. Each index and each report is given once.
-/

namespace EntityQuery

/-- What planning a query gives. -/
structure QueryPlan where
  plans    : List Plan
  queries  : List Query
  required : List Index
  reports  : List String

namespace QueryPlan

/-- Whether more than one native query is needed. -/
def needsSplit (p : QueryPlan) : Bool := 1 < p.plans.length || p.plans.any Plan.isSplit

def needsIndex (p : QueryPlan) : Bool := !p.required.isEmpty

end QueryPlan

/-- The index that a concrete query needs, and the report on it. -/
def Query.indexNeed (q : Query) (settings : Settings) (declared : Option (List Index))
    (checked : Bool) : Except Fault (Option Index × Option String) := do
  if checked then q.check settings.keyProperty
  let n ← NormalForm.ofQuery q settings.keyProperty
  match declared with
  | none => return (n.neededIndex, none)
  | some indexes =>
    let index := n.minimalIndex settings.ancestorCost indexes
    return (index, index.map n.advice)

/-- Plan a query. `declared` holds the declared indexes if they are known; `checked` tells whether
    the concrete queries are checked for legality. -/
def Query.plan (q : Query) (declared : Option (List Index)) (settings : Settings)
    (splitters : List Splitter) (cmp : Comparator) (checked : Bool) : Except Fault QueryPlan := do
  let plans ← q.fanOut splitters settings cmp
  let queries := plans.flatMap Plan.queries
  let needs ← queries.mapM (·.indexNeed settings declared checked)
  return {
    plans := plans
    queries := queries
    required := (needs.filterMap (·.1)).eraseDups
    reports := (needs.filterMap (·.2)).eraseDups }

end EntityQuery
