import EntityQuery.Fanout.Component

/-!
# Splitters — tests the backend lacks, split into tests it has

There are two such tests. Any number of exclusions `p ≠ v` on one property become the ranges before,
between and after the excluded values, in the order in which the query reads the property.
Membership in a list of two values or more becomes one equality for each value, in the order of the
list, or in the property's sort direction when the query sorts by it.

Exclusions on two properties cannot be split together, and a query that excludes values of a
property must not sort by another one first.
-/

namespace EntityQuery

/-- The two kinds of test that are split. -/
inductive Splitter where
  | exclusion
  | choice
deriving DecidableEq, Repr

namespace Splitter

/-- Both kinds, in the order in which they are split. -/
def standard : List Splitter := [.exclusion, .choice]

/-! ## Exclusions -/

/-- The ranges from a value on: between neighbours, and after the last one. -/
def rangesFrom (property : String) (lower : Value) : List Value → List Clause
  | [] => [[.above property lower]]
  | upper :: rest =>
    [.above property lower, .below property upper] :: rangesFrom property upper rest

/-- The ranges before, between and after ordered values. -/
def rangesAround (property : String) : List Value → List Clause
  | [] => []
  | v :: vs => [.below property v] :: rangesFrom property v vs

/-- The ranges in the order of reading. -/
def inReadingOrder (sorts : List SortOrder) (ranges : List Clause) : List Clause :=
  match sorts with
  | ⟨_, .descending⟩ :: _ => ranges.reverse
  | _ => ranges

/-- Split the exclusions of a clause. -/
def splitExclusions (cmp : Comparator) (sorts : List SortOrder) (c : Clause) :
    Except Fault Splitting := do
  match c.filter Predicate.isExclusion with
  | [] => return {}
  | first :: rest =>
    let excluded := first :: rest
    let names := (excluded.map Predicate.property).eraseDups
    if 1 < names.length then throw (.mixedExclusions (names.mergeSort (· ≤ ·)))
    if let s :: _ := sorts then
      if s.property ≠ first.property then throw (.exclusionSort s.property first.property)
    let values ← Value.distinct (excluded.map (·.test.value))
    let ranges := rangesAround first.property (← Value.sorted cmp .ascending values)
    return ⟨[Component.of first.property sorts (inReadingOrder sorts ranges)], excluded⟩

/-! ## Choices -/

/-- The distinct values of a membership test, in the order of reading. -/
def orderedChoices (cmp : Comparator) (sorts : List SortOrder) (property : String)
    (values : List Value) : Except Fault (List Value) :=
  match SortOrder.position? sorts property with
  | some (_, direction) => Value.sorted cmp direction values
  | none => .ok values

/-- Split the membership tests of a clause. -/
def splitChoices (cmp : Comparator) (sorts : List SortOrder) : Clause → Except Fault Splitting
  | [] => .ok {}
  | p :: ps => do
    match ← p.choices? with
    | some (v :: w :: vs) =>
      let values ← orderedChoices cmp sorts p.property (v :: w :: vs)
      let pieces := values.map fun v => [Predicate.equals p.property v]
      let others ← splitChoices cmp sorts ps
      return ⟨Component.of p.property sorts pieces :: others.components, p :: others.consumed⟩
    | _ => splitChoices cmp sorts ps

/-- Split the tests of one kind in a clause. -/
def split : Splitter → Comparator → List SortOrder → Clause → Except Fault Splitting
  | .exclusion => splitExclusions
  | .choice => splitChoices

end Splitter

end EntityQuery
