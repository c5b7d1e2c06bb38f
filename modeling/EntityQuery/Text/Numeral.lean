import EntityQuery.Fault
import EntityQuery.Text.Blank

/-!
# Numerals — numbers read from text

`natural?`, `canonical?` and `decimal?` read bare forms; `integer?` and `double?` read numbers as
they are written into text fields, with white space around them or single underlines inside.

An integer is brought into its canonical form first: a plus sign in front goes, then zeros in front
with any underlines among them, then a fraction of zeros, then underlines. A minus sign keeps
zeros behind it from being in front, so they are refused there.

A decimal numeral is a sign, digits with a point somewhere among or next to them, and an exponent,
all but the digits optional; `inf`, `infinity` and `nan` are read in any case. It has white space
around it or underlines inside, not both.
-/

namespace EntityQuery.Text

/-- The value of a digit in a base of up to sixteen. -/
def digit? (base : Nat) (c : Char) : Option Nat :=
  let n :=
    if '0' ≤ c && c ≤ '9' then c.toNat - '0'.toNat
    else if 'a' ≤ c && c ≤ 'f' then c.toNat - 'a'.toNat + 10
    else if 'A' ≤ c && c ≤ 'F' then c.toNat - 'A'.toNat + 10
    else base
  if n < base then some n else none

/-- The number that these digits write after `n`. -/
def naturalFrom? (base : Nat) : Nat → List Char → Option Nat
  | n, [] => some n
  | n, c :: cs => do naturalFrom? base (n * base + (← digit? base c)) cs

/-- The number that these digits write; one at least. -/
def natural? (base : Nat) (cs : List Char) : Option Nat :=
  if cs.isEmpty then none else naturalFrom? base 0 cs

/-- A text without its underlines, each of which stands alone between two other characters. -/
def withoutUnderlines? : List Char → Option (List Char)
  | [] => some []
  | '_' :: _ => none
  | [c] => some [c]
  | [_, '_'] => none
  | c :: '_' :: cs => do return c :: (← withoutUnderlines? cs)
  | c :: cs => do return c :: (← withoutUnderlines? cs)

/-- A sign, if there is one, and the rest. -/
def signed : List Char → Bool × List Char
  | '-' :: cs => (true, cs)
  | '+' :: cs => (false, cs)
  | cs => (false, cs)

/-- An integer in its only form: a minus sign or nothing, and digits without a zero in front. The
    sign is counted with the digits. -/
def canonical? (cs : List Char) : Option Int :=
  if ScalarFault.mostDigits < cs.length then none
  else
    match cs with
    | ['0'] | ['-', '0'] => some 0
    | '0' :: _ | '-' :: '0' :: _ => none
    | '-' :: digits => do return -((← natural? 10 digits : Nat) : Int)
    | digits => do return ((← natural? 10 digits : Nat) : Int)

/-- A text without a plus sign in front, which must not be followed by a minus sign. -/
def withoutPlus? : List Char → Option (List Char)
  | '+' :: '-' :: _ => none
  | '+' :: cs => some cs
  | cs => some cs

/-- What is left of a text when zeros and underlines go from its front, the last of them being
    `last`. It stays when nothing or a point comes after it. -/
def afterZeros? (last : Char) : List Char → Option (List Char)
  | [] => some [last]
  | c :: cs =>
    if c == '0' || c == '_' then afterZeros? c cs
    else if c == '.' then some (last :: c :: cs)
    else if c == '-' || c.isDigit then some (c :: cs)
    else none

/-- A text that begins like an integer, without zeros in front. -/
def withoutZeros? : List Char → Option (List Char)
  | [] => none
  | c :: cs =>
    if c == '0' then afterZeros? c cs
    else if c == '-' || c.isDigit then some (c :: cs)
    else none

/-- A text before its first point, if zeros and nothing else follow that. -/
def beforeFraction (cs : List Char) : List Char :=
  match cs.span (· != '.') with
  | (whole, '.' :: zeros) => if !zeros.isEmpty && zeros.all (· == '0') then whole else cs
  | _ => cs

/-- An integer in a text field. -/
def integer? (s : String) : Option Int := do
  let cs ← withoutPlus? (trim isWhite s.toList)
  let cs := beforeFraction (← withoutZeros? cs)
  canonical? (← withoutUnderlines? cs)

/-- A decimal exponent: nothing, or `e` and an integer. -/
def power? : List Char → Option Int
  | [] => some 0
  | 'e' :: cs | 'E' :: cs => do
    let (negative, digits) := signed cs
    let n ← natural? 10 digits
    return if negative then -(n : Int) else n
  | _ => none

/-- An unsigned decimal numeral. -/
def unsignedDecimal? (negative : Bool) (cs : List Char) : Option Double := do
  let (whole, rest) := cs.span Char.isDigit
  let (fraction, rest) := match rest with
    | '.' :: more => more.span Char.isDigit
    | _ => ([], rest)
  let digits ← natural? 10 (whole ++ fraction)
  return Double.ofDecimal negative digits ((← power? rest) - fraction.length)

/-- A decimal numeral, read at a place. -/
def decimal? (place : Place) (cs : List Char) : Option Double :=
  let (negative, body) := signed cs
  let word := String.ofList (body.map Char.toLower)
  if word = "inf" || word = "infinity" then some (Double.infinity negative)
  else if word = "nan" then some (Double.nan negative place)
  else unsignedDecimal? negative body

/-- A double in a text field, read at a place. -/
def double? (place : Place) (s : String) : Option Double :=
  let cs := s.toList
  (decimal? place (trim isWhite cs)).or ((withoutUnderlines? cs).bind (decimal? place))

end EntityQuery.Text
