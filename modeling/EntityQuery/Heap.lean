/-!
# Heaps — the least element of a changing collection

A heap is a binary tree that is filled level by level from the left, with no element before the one
above it. The least element is at the root. Elements are compared by a test that may fail.

The root's place is refilled from below: the smaller child moves up all the way to a leaf, the new
element is put there and rises again while it is before the element above it (`refill`). This
serves to replace the root, to remove it (the last leaf is the new element) and to build a heap
from an unordered tree.
-/

namespace EntityQuery

inductive Heap (α : Type) where
  | empty
  | node (root : α) (left right : Heap α)

namespace Heap

variable {ε α : Type}

def root? : Heap α → Option α
  | .empty => none
  | .node a _ _ => some a

def setRoot (x : α) : Heap α → Heap α
  | .empty => .empty
  | .node _ l r => .node x l r

def size : Heap α → Nat
  | .empty => 0
  | .node _ l r => l.size + r.size + 1

/-- The elements, the root first and the left side before the right one. -/
def toList : Heap α → List α
  | .empty => []
  | .node a l r => a :: (l.toList ++ r.toList)

/-- The turns from the root to the place with a number, counted level by level from one; right
    turns are `true`. -/
def turns (place : Nat) : List Bool :=
  if place ≤ 1 then [] else turns (place / 2) ++ [place % 2 == 1]

/-- Add a leaf at the end of a path. -/
def addLeaf (x : α) : List Bool → Heap α → Heap α
  | _, .empty => .node x .empty .empty
  | [], .node a l r => .node a l r
  | false :: path, .node a l r => .node a (addLeaf x path l) r
  | true :: path, .node a l r => .node a l (addLeaf x path r)

/-- The leaf at the end of a path, and the tree without it. -/
def removeLeaf : List Bool → Heap α → Option α × Heap α
  | _, .empty => (none, .empty)
  | [], .node a _ _ => (some a, .empty)
  | false :: path, .node a l r => let (x, l') := removeLeaf path l; (x, .node a l' r)
  | true :: path, .node a l r => let (x, r') := removeLeaf path r; (x, .node a l r')

/-- The tree of these elements, filled level by level and not yet ordered. -/
def ofLevels (xs : List α) : Heap α :=
  xs.zipIdx.foldl (fun t (x, i) => addLeaf x (turns (i + 1)) t) .empty

/-- Join the element that moved up with the refilled side below it. The new element is at that
    side's root if `risen`, and then goes on rising while it is before the other. -/
def rise (before : α → α → Except ε Bool) (x above : α) (side : Heap α) (risen : Bool)
    (join : α → Heap α → Heap α) : Except ε (Heap α × Bool) := do
  if risen then
    if ← before x above then return (join x (side.setRoot above), true)
  return (join above side, false)

/-- The heap with `x` in place of the root, and whether `x` has risen to the root again. -/
def refill (before : α → α → Except ε Bool) (x : α) : Heap α → Except ε (Heap α × Bool)
  | .empty => .ok (.empty, false)
  | .node _ l r =>
    match l.root?, r.root? with
    | none, _ => .ok (.node x l r, true)
    | some a, none => do
      let (l', risen) ← refill before x l
      rise before x a l' risen fun b t => .node b t r
    | some a, some b => do
      if ← before a b then
        let (l', risen) ← refill before x l
        rise before x a l' risen fun c t => .node c t r
      else
        let (r', risen) ← refill before x r
        rise before x b r' risen fun c t => .node c l t

/-- The heap with `x` in place of its least element. -/
def replaceRoot (before : α → α → Except ε Bool) (x : α) (t : Heap α) : Except ε (Heap α) :=
  return (← refill before x t).1

/-- Order a tree, from the last place to the root. -/
def order (before : α → α → Except ε Bool) : Heap α → Except ε (Heap α)
  | .empty => .ok .empty
  | .node a l r => do
    let r' ← order before r
    let l' ← order before l
    replaceRoot before a (.node a l' r')

/-- The heap of these elements. -/
def ofList (before : α → α → Except ε Bool) (xs : List α) : Except ε (Heap α) :=
  order before (ofLevels xs)

/-- The heap without its least element. -/
def pop (before : α → α → Except ε Bool) (t : Heap α) : Except ε (Heap α) :=
  match removeLeaf (turns t.size) t with
  | (none, t') => .ok t'
  | (some x, t') => replaceRoot before x t'

end Heap

end EntityQuery
