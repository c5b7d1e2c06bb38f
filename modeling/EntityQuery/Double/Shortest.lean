import EntityQuery.Double

/-!
# Shortest numerals — the text of a double

A finite double is written with the fewest significant digits that read back as the same double,
and among the numerals of that length the nearest. For a number of digits `n` only two numerals
can be nearest, the ones on either side of the value on the grid of `n` digits, and seventeen
digits always suffice; so the search tries both neighbours for `n = 1, 2, …, 17`.

The text is positional while the decimal point falls within the four zeros before the digits and
the sixteen digits after the first, and has an exponent of at least two digits otherwise.
-/

namespace EntityQuery.Double

/-- A decimal numeral: its value is `digits · 10 ^ power`. -/
structure Numeral where
  digits : Nat
  power  : Int
deriving DecidableEq, Repr

/-- The exact value of a finite double's magnitude as a quotient. -/
def quotient (d : Double) : Nat × Nat :=
  if 0 ≤ d.exponent then (d.significand * twoTo d.exponent.toNat, 1)
  else (d.significand, twoTo (-d.exponent).toNat)

/-- `num / den` in units of `10 ^ power`, as a quotient. -/
def inUnits (num den : Nat) (power : Int) : Nat × Nat :=
  if 0 ≤ power then (num, den * tenTo power.toNat) else (num * tenTo (-power).toNat, den)

/-- The largest `e` among the first candidates with `10 ^ e ≤ num / den`. -/
def decimalExponent (num den : Nat) : Int :=
  let guess : Int := (Nat.toDigits 10 num).length - (Nat.toDigits 10 den).length
  let (n, u) := inUnits num den guess
  if n < u then guess - 1 else guess

/-- Whether a numeral reads back as a double of this magnitude. -/
def readsBack (magnitude : Nat) (n : Numeral) : Bool :=
  (ofDecimal false n.digits n.power).magnitude == magnitude

/-- The numeral of the fewest digits on the grid of `digits` digits, if one reads back. -/
def numeralOf? (d : Double) (digits : Nat) : Option Numeral :=
  let (num, den) := d.quotient
  let power := decimalExponent num den - (digits - 1 : Nat)
  let (n, u) := inUnits num den power
  let below : Numeral := ⟨n / u, power⟩
  let above : Numeral := ⟨n / u + 1, power⟩
  match readsBack d.magnitude below, readsBack d.magnitude above with
  | true, true => some (if roundQuotient n u = n / u then below else above)
  | true, false => some below
  | false, true => some above
  | false, false => none

/-- The shortest numeral of a finite double other than zero. -/
def shortest (d : Double) : Numeral :=
  ((List.range 17).findSome? fun n => d.numeralOf? (n + 1)).getD ⟨d.significand, 0⟩

/-- A whole number of decimal digits, padded with zeros on the left. -/
def padded (width n : Nat) : List Char :=
  let cs := Nat.toDigits 10 n
  List.replicate (width - cs.length) '0' ++ cs

/-- The text of the digits of a numeral whose point stands after the first `point` of them. -/
def positional (cs : List Char) (point : Int) : List Char :=
  if point ≤ 0 then '0' :: '.' :: (List.replicate (-point).toNat '0' ++ cs)
  else if cs.length ≤ point.toNat then
    cs ++ List.replicate (point.toNat - cs.length) '0' ++ ['.', '0']
  else cs.take point.toNat ++ '.' :: cs.drop point.toNat

/-- The text with one digit before the point and an exponent. -/
def scientific (cs : List Char) (exponent : Int) : List Char :=
  let mantissa := match cs with
    | [] => []
    | [c] => [c]
    | c :: rest => c :: '.' :: rest
  let sign := if exponent < 0 then '-' else '+'
  mantissa ++ 'e' :: sign :: padded 2 exponent.natAbs

/-- The digits of a numeral without the zeros at its end, which the text puts back. -/
def significantDigits (n : Nat) : List Char :=
  ((Nat.toDigits 10 n).reverse.dropWhile (· == '0')).reverse

/-- The text of a double's magnitude. -/
def unsignedText (d : Double) : List Char :=
  if d.isNaN then ['n', 'a', 'n']
  else if !d.isFinite then ['i', 'n', 'f']
  else if d.magnitude = 0 then ['0', '.', '0']
  else
    let n := d.shortest
    let point : Int := (Nat.toDigits 10 n.digits).length + n.power
    let cs := significantDigits n.digits
    if -4 < point ∧ point ≤ 16 then positional cs point else scientific cs (point - 1)

/-- The text of a double. NaN has no sign. -/
def text (d : Double) : String :=
  String.ofList (if d.isNegative && !d.isNaN then '-' :: d.unsignedText else d.unsignedText)

end EntityQuery.Double
