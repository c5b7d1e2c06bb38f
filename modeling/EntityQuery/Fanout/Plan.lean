import EntityQuery.Fanout.Component

/-!
# Plans — the native queries of one clause

A plan is a clause with components in place of the tests that were split. Each way to choose one
piece of every component, added to the predicates that were left, is one *concrete* clause that the
backend can answer.

The components are ordered by the position of their sorts. The leading ones whose positions leave no
gap are *serial*: their pieces follow the sort order, so the answers to one choice of them come
before the answers to the next, and can be strung together. The others are *parallel*: the concrete
clauses that differ only there form a group, and the answers within a group have to be merged. A
query without sorts has no order to keep, and all its components are serial.

* **`Plan.groups`** — the concrete clauses, group by group.
* **`Plan.parallelSize`**, **`Plan.queryCount`** — how many there are in a group, and in all.
-/

namespace EntityQuery

/-- All ways to take one element of each list, the first list varying slowest. -/
def choices {α : Type} : List (List α) → List (List α)
  | [] => [[]]
  | xs :: rest => xs.flatMap fun x => (choices rest).map (x :: ·)

/-- The number of ways to take one element of each list. -/
def choiceCount {α : Type} (lists : List (List α)) : Nat := (lists.map List.length).foldr (· * ·) 1

structure Plan where
  query      : Query
  filters    : Clause := []
  components : List Component := []
  hasSort    : Bool := false
deriving Repr

namespace Plan

/-- The plan of these components, which it puts in order. -/
def of (query : Query) (filters : Clause) (components : List Component) (hasSort : Bool) : Plan :=
  ⟨query, filters, components.mergeSort Component.notAfter, hasSort⟩

/-- How many components have positions that go on from `next` without a gap; a position may be
    repeated. -/
def gapless (next : Nat) : List Component → Nat
  | [] => 0
  | c :: cs =>
    match c.position with
    | some i => if i = next then gapless (next + 1) cs + 1
      else if i + 1 = next then gapless next cs + 1
      else 0
    | none => 0

def serialCount (p : Plan) : Nat :=
  if p.hasSort then gapless 0 p.components else p.components.length

def serial (p : Plan) : List Component := p.components.take p.serialCount

def parallel (p : Plan) : List Component := p.components.drop p.serialCount

/-- How many concrete clauses there are. -/
def queryCount (p : Plan) : Nat := choiceCount (p.components.map Component.pieces)

/-- How many concrete clauses there are in each group. -/
def parallelSize (p : Plan) : Nat := choiceCount (p.parallel.map Component.pieces)

def isSplit (p : Plan) : Bool := !p.components.isEmpty

/-- The predicates that were left, and those of the chosen pieces. -/
def concrete (p : Plan) (pieces : List Clause) : Clause := p.filters ++ pieces.flatten

/-- The concrete clauses, group by group. -/
def groups (p : Plan) : List (List Clause) :=
  (choices (p.serial.map Component.pieces)).map fun first =>
    (choices (p.parallel.map Component.pieces)).map fun second => p.concrete (first ++ second)

/-- The concrete queries, group by group. -/
def queryGroups (p : Plan) : List (List Query) := p.groups.map (·.map p.query.withPredicates)

/-- The concrete queries. -/
def queries (p : Plan) : List Query := p.queryGroups.flatten

end Plan

end EntityQuery
