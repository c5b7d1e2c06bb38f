/-!
# Merging — two adjacent runs made one

Two runs that stand next to each other are merged from the end at which less has to be moved. What
the first run begins with and what the second one ends with stay where they are if they can.

A merge goes *element by element* until one run has led some number of times in a row, the
*patience* of the merge. Then it goes by *leaps*: it looks up how far one run leads by asking at
distances that double, and by halving between the last two of them. Leaps are kept up while they
pay; each round of them lowers the patience by one, and giving them up raises it by one. Patience is
handed on from one merge to the next.

Seen from the back everything is turned round: the second run is read backwards and takes the part
of the first one. `End` holds the differences, so that one function, `mergeFrom`, does both.

* **`leading`** — how many elements at the front of a list satisfy a test that no element after
  a failing one satisfies.
* **`merge`** — two runs made one.

As a comparison need not be an order, the sequence of questions is part of the definition.
-/

namespace EntityQuery.Sorting

variable {ε α : Type}

/-- The end of two adjacent runs that a merge begins at. -/
inductive End where
  | front
  | back

/-- The place of the candidate that is asked when `n` are left. It is one and the same from both
    ends, so from the back it is counted the other way. -/
def End.middle : End → Nat → Nat
  | front, n => n / 2
  | back, n => n - 1 - n / 2

/-- Whether an element `y` of the run that yields to the other one is nevertheless taken before an
    element `x` of the other. From the front the second run yields, and from the back the first. -/
def End.overtakes (before : α → α → Except ε Bool) : End → α → α → Except ε Bool
  | front, y, x => before y x
  | back, y, x => before x y

/-- Whether `x` is taken before `y`. -/
def End.leads (before : α → α → Except ε Bool) (e : End) (x y : α) : Except ε Bool :=
  (! ·) <$> e.overtakes before y x

/-! ## How far a run leads -/

/-- The number of leading elements that are kept, found by halving. -/
def narrow (keep : α → Except ε Bool) (e : End) (xs : List α) : Except ε Nat :=
  match _split : xs.drop (e.middle xs.length) with
  | [] => .ok 0
  | x :: more => do
    if ← keep x then return e.middle xs.length + 1 + (← narrow keep e more)
    else narrow keep e (xs.take (e.middle xs.length))
termination_by xs.length
decreasing_by
  all_goals
    have hl := congrArg List.length _split
    simp only [List.length_drop, List.length_cons] at hl
    try simp only [List.length_take]
    omega

/-- The number of leading elements that are kept, after `passed` others were: the next one asked is
    as far ahead as those reach, and at the end of the list the rest is halved. -/
def leap (keep : α → Except ε Bool) (e : End) (passed : Nat) (xs : List α) : Except ε Nat :=
  match _split : xs.drop (passed - 1) with
  | [] => narrow keep e xs
  | x :: more => do
    if ← keep x then
      let gone := passed - 1 + 1
      return gone + (← leap keep e (passed + gone) more)
    else narrow keep e (xs.take (passed - 1))
termination_by xs.length
decreasing_by
  have hl := congrArg List.length _split
  simp only [List.length_drop, List.length_cons] at hl
  omega

/-- The number of leading elements that are kept. -/
def leading (keep : α → Except ε Bool) (e : End) (xs : List α) : Except ε Nat := leap keep e 0 xs

/-! ## The merge -/

/-- How many elements a leap should cover, and the patience of a sort that has not merged yet. -/
def usualPatience : Nat := 7

/-- A leap is the first of its round, or follows one over some number of elements. -/
inductive Turn where
  | opening
  | closing (covered : Nat)

/-- The pace of a merge. -/
inductive Pace where
  /-- Element by element, when the leading and the yielding run led so many times just now. -/
  | steps (leader yielder : Nat)
  | leaps (turn : Turn)

/-- Whether the run that leads is looked through in this turn; a round looks through both, from
    each end the earlier run first. -/
def Turn.isLeaders : Turn → End → Bool
  | opening, .front | closing _, .back => true
  | opening, .back | closing _, .front => false

/-- The pace and the patience after a leap over `n` elements. -/
def Turn.next (patience n : Nat) : Turn → Pace × Nat
  | opening => (.leaps (.closing n), patience)
  | closing m =>
    if usualPatience ≤ m || usualPatience ≤ n then (.leaps .opening, max 1 (patience - 1))
    else (.steps 0 0, patience + 1)

/-- Whether the order of what is left is known: one of the runs is used up, or the leading one has
    a single element left, which is then the last. -/
def isSettled (xs ys : List α) : Bool := xs.length < 2 || ys.isEmpty

/-- Elements in front of what a merge makes of the rest. -/
def ahead (xs : List α) (merged : List α × Nat) : List α × Nat := (xs ++ merged.1, merged.2)

/-- Merge a run that leads among equals with one that yields, both read from an end. The result is
    read from that end too and comes with the patience that is left. -/
def mergeFrom (before : α → α → Except ε Bool) (e : End) (pace : Pace) (patience : Nat) :
    List α → List α → Except ε (List α × Nat)
  | x :: x' :: xs, y :: ys =>
    match pace with
    | .steps m n => do
      if ← e.overtakes before y x then
        let pace := if n + 1 < patience then Pace.steps 0 (n + 1) else .leaps .opening
        return ahead [y] (← mergeFrom before e pace patience (x :: x' :: xs) ys)
      else
        let pace := if m + 1 < patience then Pace.steps (m + 1) 0 else .leaps .opening
        return ahead [x] (← mergeFrom before e pace patience (x' :: xs) (y :: ys))
    | .leaps turn =>
      if turn.isLeaders e then do
        let leaders := x :: x' :: xs
        let n ← leading (fun z => e.leads before z y) e leaders
        let (pace, later) := turn.next patience n
        let patience := if isSettled (leaders.drop n) ys then patience else later
        return ahead (leaders.take n ++ [y])
          (← mergeFrom before e pace patience (leaders.drop n) ys)
      else do
        let yielders := y :: ys
        let n ← leading (fun z => e.overtakes before z x) e yielders
        let (pace, later) := turn.next patience n
        let patience := if isSettled (x' :: xs) (yielders.drop n) then patience else later
        return ahead (yielders.take n ++ [x])
          (← mergeFrom before e pace patience (x' :: xs) (yielders.drop n))
  | xs, ys => .ok (ys ++ xs, patience)
termination_by xs ys => xs.length + ys.length
decreasing_by
  all_goals
    simp only [List.length_cons, List.length_drop]
    omega

/-- One run of two adjacent ones, and the patience that is left. -/
def merge (before : α → α → Except ε Bool) (patience : Nat) (first second : List α) :
    Except ε (List α × Nat) :=
  match second with
  | [] => .ok (first, patience)
  | y :: _ => do
    let n ← leading (fun x => End.front.leads before x y) .front first
    let start := first.take n
    let left := first.drop n
    match left.getLast? with
    | none => return (first ++ second, patience)
    | some x =>
      let m ← leading (fun z => End.back.leads before z x) .back second.reverse
      let right := second.take (second.length - m)
      let finish := second.drop (second.length - m)
      match right with
      | [] => return (first ++ second, patience)
      | y :: others =>
        if left.length ≤ right.length then
          let (merged, patience) ← mergeFrom before .front (.steps 0 0) patience left others
          return (start ++ y :: merged ++ finish, patience)
        else
          let (merged, patience) ←
            mergeFrom before .back (.steps 0 0) patience right.reverse left.dropLast.reverse
          return (start ++ merged.reverse ++ x :: finish, patience)

end EntityQuery.Sorting
