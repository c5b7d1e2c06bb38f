/-!
# Timestamps — calendar time to the microsecond

A timestamp is a reading of a calendar and a clock. It may say by how many minutes that clock is
ahead of universal time; one that does not say is *naive*. `instant` is the number of microseconds
since the start of 1970 in universal time, a naive reading taken as universal time already.

The clock of a timestamp keeps its offset. Clocks that are put forward and back are found with
`Time`, where it is also said which times are one.
-/

namespace EntityQuery

structure Timestamp where
  year   : Nat
  month  : Nat
  day    : Nat
  hour   : Nat := 0
  minute : Nat := 0
  second : Nat := 0
  micros : Nat := 0
  /-- Minutes ahead of universal time, when the clock says so. -/
  offset : Option Int := none
deriving DecidableEq, Repr

namespace Timestamp

/-- Days from the first of January 1970. Years are counted from March, so that the leap day is the
    last of its year and the days before a month follow one linear rule. -/
def dayNumber (year month day : Nat) : Int :=
  let y : Int := if month ≤ 2 then year - 1 else year
  let m : Int := if month ≤ 2 then month + 9 else month - 3
  365 * y + y.fdiv 4 - y.fdiv 100 + y.fdiv 400 + (153 * m + 2) / 5 + day - 719469

/-- Microseconds since the start of 1970 on the clock itself. -/
def reading (t : Timestamp) : Int :=
  let seconds := (dayNumber t.year t.month t.day * 24 + t.hour) * 3600 + t.minute * 60 + t.second
  seconds * 1000000 + t.micros

/-- Microseconds since the start of 1970 in universal time. -/
def instant (t : Timestamp) : Int := t.reading - t.offset.getD 0 * 60 * 1000000

/-- How many days a month has. -/
def monthLength (year month : Nat) : Nat :=
  if month = 2 then
    if year % 4 = 0 ∧ (year % 100 ≠ 0 ∨ year % 400 = 0) then 29 else 28
  else if [4, 6, 9, 11].contains month then 30
  else 31

example : ({ year := 1970, month := 1, day := 1 } : Timestamp).instant = 0
    ∧ ({ year := 2000, month := 3, day := 1 } : Timestamp).instant = 951868800000000 := by decide

end Timestamp

end EntityQuery
