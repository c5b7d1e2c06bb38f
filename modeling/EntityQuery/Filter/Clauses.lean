import EntityQuery.Filter

/-!
# Clauses — a filter as an OR of ANDs

A *clause* is a list of predicates that are all asked for. Any filter is equivalent to the OR of
its clauses: those of an OR are the clauses of its parts, and those of an AND are all ways to take
one clause of each part and join them. Within a clause a predicate stands once, where it is first
seen, and the leaves of an AND stand before the rest; of several clauses with the same predicates
the first is kept.

The depth of a filter is bounded. The bound is checked where the expansion descends: at every part
of an OR, but of an AND only at its composite parts.

* **`Filter.clauses`** — the clauses of a filter, or the fault that it is too deep or asks about a
  record, which cannot be told apart in a set.
-/

namespace EntityQuery

/-- Predicates that are asked for together. -/
abbrev Clause := List Predicate

namespace Clause

/-- Whether two clauses hold the same predicates. -/
def sameSet (a b : Clause) : Bool := a.all b.contains && b.all a.contains

/-- The predicates of both clauses, each once. -/
def join (a b : Clause) : Clause := (a ++ b).eraseDups

/-- Clauses with later ones of the same predicates left out. -/
def distinct (cs : List Clause) : List Clause := cs.eraseDupsBy sameSet

/-- All ways to join one clause of each side, the left side varying slowest. -/
def product (left right : List Clause) : List Clause :=
  left.flatMap fun l => right.map (join l)

end Clause

namespace Filter

/-- The predicates among the parts of a composite. -/
def leaves (parts : List Filter) : Clause :=
  parts.filterMap fun
    | .leaf p => some p
    | .node _ _ => none

mutual

/-- The clauses of a filter that stands at a depth. -/
def clausesAt (limit : Int) (depth : Nat) (f : Filter) : Except Fault (List Clause) :=
  if limit < depth then .error (.tooDeep limit)
  else
    match f with
    | .leaf p => if p.keyable then .ok [[p]] else .error .recordInSet
    | .node .any parts => do return Clause.distinct (← clausesOfAny limit (depth + 1) parts)
    | .node .all parts => do
      let rest ← clausesOfAll limit (depth + 1) parts [[]]
      if (leaves parts).all Predicate.keyable then
        return Clause.distinct (rest.map (Clause.join (leaves parts)))
      else throw .recordInSet
termination_by structural f

/-- The clauses of all parts of an OR. -/
def clausesOfAny (limit : Int) (depth : Nat) : List Filter → Except Fault (List Clause)
  | [] => .ok []
  | f :: fs => do return (← clausesAt limit depth f) ++ (← clausesOfAny limit depth fs)
termination_by structural fs => fs

/-- The joins of the clauses so far with one clause of each composite part of an AND. -/
def clausesOfAll (limit : Int) (depth : Nat) :
    List Filter → List Clause → Except Fault (List Clause)
  | [], acc => .ok acc
  | .leaf _ :: fs, acc => clausesOfAll limit depth fs acc
  | f :: fs, acc => do
    clausesOfAll limit depth fs (Clause.product acc (← clausesAt limit depth f))
termination_by structural fs => fs

end

/-- The clauses of a filter. -/
def clauses (limit : Int) (f : Filter) : Except Fault (List Clause) := clausesAt limit 0 f

end Filter

end EntityQuery
