import EntityQuery.Sorting.Merge
import EntityQuery.Sorting.Run

/-!
# Sorting — a stable sort by a comparison that may fail

`sort` takes a list apart into runs and merges them again, so equal elements keep their order. A
list of fewer than 64 elements is a single run; the runs of a longer one are 32 to 64 elements long
or longer.

Which runs are merged when depends on where they meet: the *power* of a border is the number of
binary digits that tell the middles of the two runs apart, as fractions of the whole list. Borders
of greater power are merged away first, as in a nearly balanced tree over the list.

The comparison need not be an order. Which elements are compared, and so which refusal comes
first, is part of what the sort does; a list of one element is never compared.
-/

namespace EntityQuery.Sorting

variable {ε α : Type}

/-- The least length of the runs of a list of `n` elements: what between 32 and 64 elements is left
    when `n` is halved, rounded up. -/
def leastRun (n : Nat) : Nat :=
  let unit := Nat.pow 2 (n.log2 - 5)
  (n + unit - 1) / unit

/-- The power of the border between two runs of `m` and `n` elements that begin at `start`: the
    first number of binary digits with which their middles, as fractions of the whole, differ. The
    middles are doubled to be integers. -/
def borderPower (whole start m n : Nat) : Nat :=
  let a := 2 * start + m
  let b := a + m + n
  let digits (middle k : Nat) := Nat.pow 2 k * middle / (2 * whole)
  ((List.range (whole.log2 + 3)).find? fun k => digits a k != digits b k).getD 0

/-- A run that waits to be merged, and the power of the border behind it. -/
structure Pending (α : Type) where
  elements : List α
  power    : Nat

/-- What has been sorted of a list: the last run, those before it from the last to the first, and
    the patience of the next merge. -/
structure Progress (α : Type) where
  last     : List α
  pending  : List (Pending α)
  patience : Nat

/-- Merge the last run with those before it while their borders have more than this power. -/
def collapse (before : α → α → Except ε Bool) (power : Nat) (patience : Nat) (last : List α) :
    List (Pending α) → Except ε (Progress α)
  | [] => .ok ⟨last, [], patience⟩
  | p :: rest =>
    if power < p.power then do
      let (merged, patience) ← merge before patience p.elements last
      collapse before power patience merged rest
    else .ok ⟨last, p :: rest, patience⟩

/-- Merge all runs. A run between a shorter and a longer one is merged with the shorter. -/
def finish (before : α → α → Except ε Bool) (patience : Nat) (last : List α) :
    List (List α) → Except ε (List α)
  | [] => .ok last
  | [run] => do return (← merge before patience run last).1
  | run :: earlier :: rest =>
    if earlier.length < last.length then do
      let (merged, patience) ← merge before patience earlier run
      finish before patience last (merged :: rest)
    else do
      let (merged, patience) ← merge before patience run last
      finish before patience merged (earlier :: rest)
termination_by runs => runs.length

/-- Sort what is left of a list of `whole` elements. -/
def goOn (before : α → α → Except ε Bool) (whole : Nat) (done : Progress α) :
    List α → Except ε (List α)
  | [] => finish before done.patience done.last (done.pending.map (·.elements))
  | x :: xs => do
    let (run, size) ← nextRun before (leastRun whole) (x :: xs)
    let start := whole - (x :: xs).length - done.last.length
    let power := borderPower whole start done.last.length run.length
    let merged ← collapse before power done.patience done.last done.pending
    goOn before whole ⟨run, ⟨merged.last, power⟩ :: merged.pending, merged.patience⟩
      (xs.drop (size - 1))
termination_by xs => xs.length
decreasing_by
  simp only [List.length_drop, List.length_cons]
  omega

/-- The elements in order, equal ones as they stood. -/
def sort (before : α → α → Except ε Bool) (xs : List α) : Except ε (List α) := do
  let (run, size) ← nextRun before (leastRun xs.length) xs
  goOn before xs.length ⟨run, [], usualPatience⟩ (xs.drop size)

/-- The elements in the opposite order, equal ones still as they stood. -/
def sortFalling (before : α → α → Except ε Bool) (xs : List α) : Except ε (List α) :=
  return (← sort before xs.reverse).reverse

end EntityQuery.Sorting
