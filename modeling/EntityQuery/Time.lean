import EntityQuery.Timestamp

/-!
# Time — readings of clocks that are put forward and back

A clock may go by a *zone*, which lists when it was put to another offset. A clock that is put back
shows some readings twice, and one that is put forward skips some. What such a reading means is
known only once it is said whether it is met for the first time or `again`: for the first time the
offset is the one before the change, and again it is the one after it, be the reading skipped or
shown twice. All other readings are *definite*.

Times on one clock are one when their readings are, and nobody asks whether these are met again. So
times may be one though their instants are not. Times on different clocks are one when their
instants are, if both are definite. A naive time is only ever the same as a naive one, although it
may share its instant with others.

A zone has a name, so that clocks with one list of changes can be different clocks. It has an offset
for every reading, and a change in it is over before the next one begins.

* **`Time.instant`** — the microseconds since the start of 1970 in universal time.
* **`Time.same`** — whether two times are one.
-/

namespace EntityQuery

/-- At an instant a clock is put to an offset, which is how far it is ahead of universal time, in
    microseconds. -/
structure Change where
  instant : Int
  offset  : Int
deriving DecidableEq, Repr

namespace Change

/-- The first reading that a change from `offset` may concern. -/
def begins (c : Change) (offset : Int) : Int := c.instant + min offset c.offset

/-- The first reading after those. -/
def ends (c : Change) (offset : Int) : Int := c.instant + max offset c.offset

/-- Whether each change is over before the next one begins, the clock being ahead by `offset`. -/
def settled : Int → List Change → Bool
  | _, [] => true
  | offset, c :: changes =>
    changes.head?.all (fun d => c.ends offset ≤ d.begins c.offset) && settled c.offset changes

/-- How far the clock is ahead at a reading, being ahead by `offset` before all changes. -/
def offsetAt (again : Bool) (reading : Int) : Int → List Change → Int
  | offset, [] => offset
  | offset, c :: changes =>
    if reading < (if again then c.begins offset else c.ends offset) then offset
    else offsetAt again reading c.offset changes

end Change

/-- The rules by which a clock is put forward and back. -/
structure Zone where
  name    : String
  /-- How far the clock is ahead before all changes. -/
  offset  : Int
  changes : List Change
  settled : Change.settled offset changes = true
deriving DecidableEq, Repr

namespace Zone

def offsetAt (z : Zone) (reading : Int) (again : Bool) : Int :=
  Change.offsetAt again reading z.offset z.changes

/-- Whether a reading means the same when it is met again. -/
def isDefinite (z : Zone) (reading : Int) : Bool :=
  z.offsetAt reading false == z.offsetAt reading true

end Zone

/-- A timestamp whose clock keeps its offset, or one on a clock that goes by a zone. -/
structure Time extends Timestamp where
  zone  : Option Zone := none
  /-- Whether the clock shows the reading again. -/
  again : Bool := false
  ruled : zone = none ∨ offset = none := by simp
deriving DecidableEq, Repr

namespace Time

instance : Coe Timestamp Time := ⟨fun t => { t with }⟩

instance : CoeOut Time Timestamp := ⟨toTimestamp⟩

/-- Microseconds since the start of 1970 in universal time. -/
def instant (t : Time) : Int :=
  match t.zone with
  | none => t.toTimestamp.instant
  | some z => t.reading - z.offsetAt t.reading t.again

def isNaive (t : Time) : Bool := t.offset.isNone && t.zone.isNone

/-- Whether a time is the same when it is met again. -/
def isDefinite (t : Time) : Bool := t.zone.all (·.isDefinite t.reading)

/-- Whether two times are one value. -/
def same (a b : Time) : Bool :=
  if a.zone.isSome && a.zone == b.zone then a.reading == b.reading
  else a.isNaive == b.isNaive && a.isDefinite && b.isDefinite && a.instant == b.instant

end Time

end EntityQuery
