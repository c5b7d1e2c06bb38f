import EntityQuery.Query

/-!
# Settings — what planning can be told

A planner is told how many queries it may merge in memory, how much an ancestor that no index
covers weighs against an equality that none covers, how deep a filter may be nested, and which
property holds the key.
-/

namespace EntityQuery

structure Settings where
  maxParallelQueries : Nat := 30
  ancestorCost       : Nat := 2
  maxFilterDepth     : Nat := 64
  keyProperty        : String := defaultKeyProperty
deriving DecidableEq, Repr

end EntityQuery
