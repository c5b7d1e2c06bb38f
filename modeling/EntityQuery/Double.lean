/-!
# Doubles — binary64 values as exact integers

A double is kept as its 64 bits, so every question about it is a question about integers. The
sign bit and the remaining 63 bits, its *magnitude*, order doubles the way their values do: among
doubles that are not NaN, `order` is the magnitude with the sign put in front. Two zeros have the
same order and NaN has none.

A NaN is also given the *place* it was read at. Two NaNs read at different places are different
values and a NaN is itself, so telling doubles apart (`same`) is an equivalence with no exception
for NaN, while comparing them (`compare?`) still leaves NaN unordered. NaNs that come as values are
counted, and one that is written as text in a comparison goes by the number of the comparison.

* **`Double.nearest`** — the double nearest to an exact quotient, halves to the even neighbour.
* **`Double.ofDecimal`** — the double a decimal numeral denotes.
-/

namespace EntityQuery

/-- The place that a NaN was read at. -/
inductive Place where
  | value (number : Nat)
  | comparison (number : Nat)
deriving DecidableEq, Repr

/-- A binary64 value by its bits. `place` is read for NaN only. -/
structure Double where
  bits  : UInt64
  place : Place := .value 0
deriving DecidableEq, Repr

namespace Double

def twoTo (n : Nat) : Nat := Nat.pow 2 n

def tenTo (n : Nat) : Nat := Nat.pow 10 n

/-- The weight of the sign bit. -/
def signWeight : Nat := twoTo 63

/-- The magnitude of infinity; every larger magnitude is a NaN. -/
def infiniteMagnitude : Nat := 0x7ff * twoTo 52

/-- The double with the given sign and magnitude. -/
def ofMagnitude (negative : Bool) (magnitude : Nat) : Double :=
  { bits := UInt64.ofNat ((if negative then signWeight else 0) + magnitude) }

def isNegative (d : Double) : Bool := signWeight ≤ d.bits.toNat

/-- All bits but the sign. -/
def magnitude (d : Double) : Nat := d.bits.toNat % signWeight

def isNaN (d : Double) : Bool := infiniteMagnitude < d.magnitude

def isFinite (d : Double) : Bool := d.magnitude < infiniteMagnitude

/-- The position of a double among all doubles; the two zeros share theirs. -/
def order (d : Double) : Int := if d.isNegative then -d.magnitude else d.magnitude

/-- Whether two doubles are one value: by value, and for NaN by the place it was read at. -/
def same (a b : Double) : Bool :=
  if a.isNaN || b.isNaN then a.isNaN && b.isNaN && a.place == b.place else a.order == b.order

/-- The order of two doubles; NaN is ordered with nothing. -/
def compare? (a b : Double) : Option Ordering :=
  if a.isNaN || b.isNaN then none else some (compare a.order b.order)

/-- Whether a double is at most another; never when one is NaN. -/
def le (a b : Double) : Bool :=
  match a.compare? b with
  | some .gt | none => false
  | _ => true

/-! ## Exact values -/

/-- The significand of a finite double: its value is `significand · 2 ^ exponent`. -/
def significand (d : Double) : Nat :=
  if d.magnitude < twoTo 52 then d.magnitude else d.magnitude % twoTo 52 + twoTo 52

/-- The exponent of the last bit of a finite double's significand. -/
def exponent (d : Double) : Int :=
  if d.magnitude < twoTo 52 then -1074 else (d.magnitude / twoTo 52 : Nat) - 1075

/-- The integer a double stands for, if it is finite and has no fraction. -/
def toInt? (d : Double) : Option Int :=
  if !d.isFinite then none
  else
    let sign : Int := if d.isNegative then -1 else 1
    if 0 ≤ d.exponent then some (sign * (d.significand * twoTo d.exponent.toNat : Nat))
    else
      let unit := twoTo (-d.exponent).toNat
      if d.significand % unit = 0 then some (sign * (d.significand / unit : Nat)) else none

/-! ## Rounding -/

/-- The quotient of two naturals to the nearest natural, halves to the even one. -/
def roundQuotient (num den : Nat) : Nat :=
  let q := num / den
  let r := num % den
  if 2 * r < den then q
  else if den < 2 * r then q + 1
  else q + q % 2

/-- The exponent of the leading bit of `num / den`, for positive `num` and `den`. -/
def leadingExponent (num den : Nat) : Int :=
  let guess : Int := (num.log2 : Int) - den.log2
  let below := if 0 ≤ guess then num < den * twoTo guess.toNat else num * twoTo (-guess).toNat < den
  if below then guess - 1 else guess

/-- The magnitude of the double nearest to `num / den`. The last bit of a double whose leading
    exponent is `e` weighs `2 ^ (e - 52)`, but never less than `2 ^ (-1074)`; a carry out of the
    rounded significand moves into the exponent field, which is what it should do. -/
def nearestMagnitude (num den : Nat) : Nat :=
  if num = 0 then 0
  else
    let unit := max (leadingExponent num den - 52) (-1074)
    let q :=
      if 0 ≤ unit then roundQuotient num (den * twoTo unit.toNat)
      else roundQuotient (num * twoTo (-unit).toNat) den
    min ((unit + 1074).toNat * twoTo 52 + q) infiniteMagnitude

/-- The double nearest to `± num / den`. -/
def nearest (negative : Bool) (num den : Nat) : Double :=
  ofMagnitude negative (nearestMagnitude num den)

/-- The double nearest to an integer. -/
def ofInt (i : Int) : Double := nearest (i < 0) i.natAbs 1

def infinity (negative : Bool) : Double := ofMagnitude negative infiniteMagnitude

/-- A NaN with a sign, read at `place`. -/
def nan (negative : Bool) (place : Place) : Double :=
  { ofMagnitude negative (infiniteMagnitude + twoTo 51) with place }

/-- The double that `± digits · 10 ^ power` denotes. Far outside the range of doubles the answer is
    known from the number of digits alone, and no large power is computed. -/
def ofDecimal (negative : Bool) (digits : Nat) (power : Int) : Double :=
  let size : Int := (Nat.toDigits 10 digits).length + power
  if digits = 0 then ofMagnitude negative 0
  else if 400 < size then infinity negative
  else if size < -400 then ofMagnitude negative 0
  else if 0 ≤ power then nearest negative (digits * tenTo power.toNat) 1
  else nearest negative digits (tenTo (-power).toNat)

/-- One, minus zero and the largest double, read off their bits. -/
example : (ofInt 1).bits = 0x3ff0000000000000 ∧ ({ bits := 0x8000000000000000 } : Double).order = 0
    ∧ ({ bits := 0x7fefffffffffffff } : Double).isFinite := by decide

end Double

end EntityQuery
