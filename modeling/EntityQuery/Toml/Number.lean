import EntityQuery.Text.Numeral
import EntityQuery.Value

/-!
# Numbers, dates and times of TOML

An integer is decimal, with a sign and without leading zeros, or hexadecimal, octal or binary after
a prefix; single underlines may stand between digits. With a fraction or an exponent it is a double.
A date may be followed by a time of day, and that by an offset. A time of day alone is kept on the
first day of 1970.

Every reader here takes the longest beginning it can and gives the characters that are left.
-/

namespace EntityQuery.Toml

/-- Digits in a base, with single underlines between them. -/
def digitsFrom (base : Nat) : List Char → List Char × List Char
  | '_' :: c :: cs =>
    if (Text.digit? base c).isSome then
      let (ds, rest) := digitsFrom base cs
      (c :: ds, rest)
    else ([], '_' :: c :: cs)
  | c :: cs =>
    if (Text.digit? base c).isSome then
      let (ds, rest) := digitsFrom base cs
      (c :: ds, rest)
    else ([], c :: cs)
  | [] => ([], [])

/-- Digits, the first of which is no underline. -/
def digits? (base : Nat) (cs : List Char) : Option (List Char × List Char) :=
  match cs with
  | c :: _ => if (Text.digit? base c).isSome then some (digitsFrom base cs) else none
  | [] => none

/-- An integer after the sign of its base. -/
def based? (base : Nat) (cs : List Char) : Option (Value × List Char) := do
  let (ds, rest) ← digits? base cs
  return (.int (← Text.natural? base ds), rest)

/-- Digits after a point, if there are any. -/
def fraction (cs : List Char) : List Char × List Char :=
  match cs with
  | '.' :: rest => (digits? 10 rest).getD ([], cs)
  | _ => ([], cs)

/-- An exponent, if there is one. -/
def power? (cs : List Char) : Option (Int × List Char) :=
  match cs with
  | e :: rest =>
    if e == 'e' || e == 'E' then do
      let (negative, rest) := Text.signed rest
      let (ds, rest) ← digits? 10 rest
      let n ← Text.natural? 10 ds
      return (if negative then -(n : Int) else n, rest)
    else none
  | [] => none

/-- A decimal number: an integer, or a double when it has a fraction or an exponent. -/
def decimal (cs : List Char) : Except ReadFault (Value × List Char) := do
  let (negative, body) := Text.signed cs
  let (whole, rest) ← match body with
    | '0' :: rest => pure (['0'], rest)
    | _ => readable (digits? 10 body)
  let (places, rest) := fraction rest
  match places, power? rest with
  | [], none =>
    if ScalarFault.mostDigits < whole.length then throw (.scalar (.manyDigits whole.length))
    let n ← readable (Text.natural? 10 whole)
    return (.int (if negative then -(n : Int) else n), rest)
  | places, power =>
    let n ← readable (Text.natural? 10 (whole ++ places))
    let (power, rest) := power.getD (0, rest)
    return (.double (Double.ofDecimal negative n (power - places.length)), rest)

/-- The words for infinity and NaN. -/
def special? (cs : List Char) : Option (Value × List Char) :=
  let (negative, body) := Text.signed cs
  if body.take 3 == ['i', 'n', 'f'] then some (.double (Double.infinity negative), body.drop 3)
  else if body.take 3 == ['n', 'a', 'n'] then
    some (.double (Double.nan negative (.value 0)), body.drop 3)
  else none

/-- An integer in another base than ten. -/
def marked? : List Char → Option (Value × List Char)
  | '0' :: 'x' :: rest => based? 16 rest
  | '0' :: 'o' :: rest => based? 8 rest
  | '0' :: 'b' :: rest => based? 2 rest
  | _ => none

def number (cs : List Char) : Except ReadFault (Value × List Char) :=
  match (marked? cs).or (special? cs) with
  | some result => .ok result
  | none => decimal cs

/-! ## Dates and times -/

/-- A number of exactly so many digits, between two bounds. -/
def field? (width low high : Nat) (cs : List Char) : Option (Nat × List Char) := do
  let ds := cs.take width
  if ds.length < width || !ds.all Char.isDigit then none
  let n ← Text.natural? 10 ds
  if low ≤ n && n ≤ high then some (n, cs.drop width) else none

def after? (c : Char) : List Char → Option (List Char)
  | d :: cs => if c = d then some cs else none
  | [] => none

/-- A time of day: hour, minute, second and microsecond. -/
def clock? (cs : List Char) : Option ((Nat × Nat × Nat × Nat) × List Char) := do
  let (hour, cs) ← field? 2 0 23 cs
  let (minute, cs) ← field? 2 0 59 (← after? ':' cs)
  let (second, cs) ← field? 2 0 59 (← after? ':' cs)
  let (places, rest) := match cs with
    | '.' :: rest => rest.span Char.isDigit
    | _ => ([], cs)
  if places.isEmpty then return ((hour, minute, second, 0), cs)
  else
    let six := places.take 6
    let micros ← Text.natural? 10 (six ++ List.replicate (6 - six.length) '0')
    return ((hour, minute, second, micros), rest)

/-- An offset in minutes, if there is one. -/
def offset (cs : List Char) : Option Int × List Char :=
  match cs with
  | 'Z' :: rest | 'z' :: rest => (some 0, rest)
  | sign :: rest =>
    let minutes? : Option (Nat × List Char) := do
      if sign != '+' && sign != '-' then none
      let (hours, rest) ← field? 2 0 23 rest
      let (minutes, rest) ← field? 2 0 59 (← after? ':' rest)
      return (hours * 60 + minutes, rest)
    match minutes? with
    | some (n, rest) => (some (if sign == '-' then -(n : Int) else n), rest)
    | none => (none, cs)
  | [] => (none, cs)

/-- The form of a date: year, month and day. -/
def date? (cs : List Char) : Option ((Nat × Nat × Nat) × List Char) := do
  let (year, cs) ← field? 4 0 9999 cs
  let (month, cs) ← field? 2 1 12 (← after? '-' cs)
  let (day, cs) ← field? 2 1 31 (← after? '-' cs)
  return ((year, month, day), cs)

/-- The time of day and the offset that may follow a date. -/
def timeAfterDate? (cs : List Char) :
    Option ((Nat × Nat × Nat × Nat) × Option Int × List Char) := do
  let c ← cs.head?
  if c != 'T' && c != 't' && c != ' ' then none
  let (clock, rest) ← clock? (cs.drop 1)
  let (offset, rest) := offset rest
  return (clock, offset, rest)

/-- A date or time. Where the form of a date is met the date must be in the calendar. -/
def time? (cs : List Char) : Option (Option (Value × List Char)) :=
  match date? cs with
  | some ((year, month, day), rest) =>
    if year = 0 || Timestamp.monthLength year month < day then some none
    else
      match timeAfterDate? rest with
      | some ((hour, minute, second, micros), offset, rest) =>
        some (some (.time (Timestamp.mk year month day hour minute second micros offset), rest))
      | none => some (some (.time (Timestamp.mk year month day 0 0 0 0 none), rest))
  | none =>
    (clock? cs).map fun ((hour, minute, second, micros), rest) =>
      some (.time (Timestamp.mk 1970 1 1 hour minute second micros none), rest)

end EntityQuery.Toml
