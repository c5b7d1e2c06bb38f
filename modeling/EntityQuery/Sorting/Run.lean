/-!
# Runs — stretches of a list that are in order already

A list is taken apart into *runs*. The run at the front of a list is the longest stretch that is
already in order, or strictly in reverse order and then turned round; a run that is too short is
lengthened by putting further elements into place one by one (`insert`), each by halving what is
sorted so far.

* **`nextRun`** — the run at the front of a list, and how far it reaches.

A comparison may fail, and its first failure is the result. It need not be an order either: which
elements are compared, and in which sequence, is part of what is defined here.
-/

namespace EntityQuery.Sorting

variable {ε α : Type}

/-- Put an element behind the last one that it is not before, searching by halves. -/
def insert (before : α → α → Except ε Bool) (x : α) (xs : List α) : Except ε (List α) :=
  match _split : xs.drop (xs.length / 2) with
  | [] => .ok (xs ++ [x])
  | m :: back => do
    let front := xs.take (xs.length / 2)
    if ← before x m then
      return (← insert before x front) ++ m :: back
    else
      return front ++ m :: (← insert before x back)
termination_by xs.length
decreasing_by
  all_goals
    have hl := congrArg List.length _split
    simp only [List.length_drop, List.length_cons] at hl
    try simp only [List.length_take]
    omega

/-- Put elements into a sorted list one after the other. -/
def insertAll (before : α → α → Except ε Bool) : List α → List α → Except ε (List α)
  | sorted, [] => .ok sorted
  | sorted, x :: xs => do insertAll before (← insert before x sorted) xs

/-- How many elements continue a run after `last`: in a falling run each is before the one that
    precedes it, in a rising run none is. -/
def continuation (before : α → α → Except ε Bool) (falling : Bool) (last : α) :
    List α → Except ε Nat
  | [] => .ok 0
  | x :: xs => do
    if (← before x last) = falling then return (← continuation before falling x xs) + 1
    else return 0

/-- How many elements the stretch at the front of a list has, and whether it is falling. -/
def stretch (before : α → α → Except ε Bool) : List α → Except ε (Nat × Bool)
  | x :: y :: rest => do
    let falling ← before y x
    return ((← continuation before falling y rest) + 2, falling)
  | xs => .ok (xs.length, false)

/-- The run at the front of a list, of at least `least` elements if there are so many, and the
    number of elements that it takes up. -/
def nextRun (before : α → α → Except ε Bool) (least : Nat) (xs : List α) :
    Except ε (List α × Nat) := do
  let (size, falling) ← stretch before xs
  let front := xs.take size
  let added := (xs.drop size).take (least - size)
  let run ← insertAll before (if falling then front.reverse else front) added
  return (run, max size least)

end EntityQuery.Sorting
