/-!
# Keys — the names of entities

A key has a namespace, a kind and an id, and stands at the root or below a parent key. Its *path*
is the list of (kind, id) steps from the root down to it.

Keys are ordered by their own namespace and then by path, step by step: by kind, numeric ids
before names, then by the id itself; a path comes after every proper beginning of it. Equality is
finer than the order: it also looks at the namespaces of the parents, which the order does not
read. So two keys may be unequal with neither before the other, and then `cmp` puts each after
the other.
-/

namespace EntityQuery

/-- What tells entities of one kind and parent apart. -/
inductive KeyId where
  | number (n : Int)
  | name (s : String)
deriving DecidableEq, Repr, Inhabited

/-- A key, at the root or below a parent. -/
inductive Key where
  | root (space kind : String) (id : KeyId)
  | child (parent : Key) (space kind : String) (id : KeyId)
deriving DecidableEq, Repr, Inhabited

namespace KeyId

/-- Numbers by size, then names by code point. -/
def cmp : KeyId → KeyId → Ordering
  | .number a, .number b => compare a b
  | .number _, .name _ => .lt
  | .name _, .number _ => .gt
  | .name a, .name b => compare a b

end KeyId

namespace Key

/-- One step of a path. -/
abbrev Step := String × KeyId

def space : Key → String
  | .root s _ _ => s
  | .child _ s _ _ => s

def kind : Key → String
  | .root _ k _ => k
  | .child _ _ k _ => k

def id : Key → KeyId
  | .root _ _ i => i
  | .child _ _ _ i => i

def parent? : Key → Option Key
  | .root .. => none
  | .child p .. => some p

/-- A key under `parent?`, or at the root. -/
def under (parent? : Option Key) (space kind : String) (id : KeyId) : Key :=
  match parent? with
  | none => .root space kind id
  | some p => .child p space kind id

/-- The steps from the root down to a key. -/
def path : Key → List Step
  | .root _ k i => [(k, i)]
  | .child p _ k i => p.path ++ [(k, i)]

def stepCmp (a b : Step) : Ordering := (compare a.1 b.1).then (a.2.cmp b.2)

/-- Paths step by step; a proper beginning comes first. -/
def pathCmp : List Step → List Step → Ordering
  | [], [] => .eq
  | [], _ :: _ => .lt
  | _ :: _, [] => .gt
  | a :: as, b :: bs => (stepCmp a b).then (pathCmp as bs)

/-- The order of two keys by namespace and path. -/
def pathOrder (a b : Key) : Ordering := (compare a.space b.space).then (pathCmp a.path b.path)

def lt (a b : Key) : Bool := pathOrder a b == .lt

/-- After, which an unequal key that is not before already is. -/
def gt (a b : Key) : Bool := !lt a b && a != b

def le (a b : Key) : Bool := lt a b || a == b

def ge (a b : Key) : Bool := !lt a b

/-- The outcome of asking first whether `a` is before `b` and then whether it is after. -/
def cmp (a b : Key) : Ordering :=
  if lt a b then .lt else if gt a b then .gt else .eq

/-- Whether a key is another one or above it, in the same namespace. -/
def isAncestorOf (a b : Key) : Bool := a.space == b.space && a.path.isPrefixOf b.path

end Key

end EntityQuery
