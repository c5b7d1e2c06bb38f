import EntityQuery.Filter.Clauses
import EntityQuery.Value.Order

/-!
# Matching — which entities satisfy a filter

An entity is looked at through its fields. A comparison compares the field, null when it is
missing, with the value it is asked about; membership asks whether some value of the list compares
as equal; presence asks whether the field is there at all. Containment in a region is left to the
backend: a region has no place in the order of values, and asking here is a fault.

A filter is satisfied when all predicates of one of its clauses are. Predicates are looked at from
left to right, and none that the outcome no longer depends on.
-/

namespace EntityQuery

/-- The fields of an entity. -/
abbrev Fields := List (String × Value)

namespace Predicate

/-- Whether an entity passes a predicate, values being compared by `cmp`. -/
def holds (cmp : Comparator) (entity : Fields) (p : Predicate) : Except Fault Bool :=
  let value := Value.fieldOrNull entity p.property
  match p.test with
  | .relation r v => return r.holds (← cmp value v)
  | .oneOf vs => vs.anyM fun v => return (← cmp value v) == .eq
  | .present _ => .ok (Value.field? entity p.property).isSome
  | .inside region => do
    let _ ← cmp value region
    throw .containmentUntested

end Predicate

namespace Clause

def holds (cmp : Comparator) (entity : Fields) (c : Clause) : Except Fault Bool :=
  c.allM (Predicate.holds cmp entity)

/-- Whether an entity satisfies one of the clauses. -/
def someHolds (cmp : Comparator) (entity : Fields) (cs : List Clause) : Except Fault Bool :=
  cs.anyM (holds cmp entity)

end Clause

/-- The entities that satisfy one of the clauses, in their order. -/
def Clause.select (cmp : Comparator) (cs : List Clause) :
    List Fields → Except Fault (List Fields)
  | [] => .ok []
  | e :: es => do
    let satisfied ← Clause.someHolds cmp e cs
    let rest ← select cmp cs es
    return if satisfied then e :: rest else rest

end EntityQuery
