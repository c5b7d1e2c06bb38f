import EntityQuery.Text.Numeral
import EntityQuery.Value

/-!
# Plain scalars — what an unquoted word stands for

An unquoted word is null, a truth value, a number or a date when it has the form of one, and text
otherwise. The forms are those of YAML 1.1: `yes`, `no`, `on` and `off` are truth values; integers
may be written in base two, eight and sixteen, with underlines, and in groups of sixty; a double
needs a point and a signed exponent. Two words have no value at all: `=` and `<<`; nor have
impossible dates, nor numerals without digits or with too many.

* **`Yaml.Scalar.ofPlain`** — the meaning of a word.
* **`Yaml.isPlainText`** — whether it is text, so that text can be written without quotes.
-/

namespace EntityQuery.Yaml

/-- What an unquoted word stands for. -/
inductive Scalar where
  | value (v : Value)
  /-- The word that is only good as a key, for the fields of other records. -/
  | merge
  /-- The other word without a value. -/
  | default
  /-- A word in the form of a value that it has not. -/
  | faulty (cause : ScalarFault)
  | text (s : String)

/-! ## Numbers -/

def isUnderline (c : Char) : Bool := c == '_'

/-- Digits with underlines among them, the first character being a digit. -/
def digits? (base : Nat) (cs : List Char) : Option Nat :=
  match cs with
  | c :: _ => if isUnderline c then none else Text.natural? base (cs.filter (!isUnderline ·))
  | [] => none

/-- Digits with underlines anywhere. -/
def looseDigits? (base : Nat) (cs : List Char) : Option Nat :=
  Text.natural? base (cs.filter (!isUnderline ·))

/-- The parts of a word between colons. -/
def colonParts (cs : List Char) : List (List Char) := cs.splitOn ':'

/-- One or two digits below sixty. -/
def sixtieth? (cs : List Char) : Option Nat := do
  if cs.length = 0 || 2 < cs.length then none
  let n ← Text.natural? 10 cs
  if n < 60 then some n else none

/-- Groups of sixty, the first of any size. -/
def sexagesimal? : Nat → List (List Char) → Option Nat
  | n, [] => some n
  | n, g :: gs => do sexagesimal? (n * 60 + (← sixtieth? g)) gs

def unsignedInteger? : List Char → Option Nat
  | ['0'] => some 0
  | '0' :: 'b' :: cs => looseDigits? 2 cs
  | '0' :: 'x' :: cs => looseDigits? 16 cs
  | '0' :: cs => looseDigits? 8 ('0' :: cs)
  | cs =>
    match colonParts cs with
    | first :: groups => do sexagesimal? (← digits? 10 first) groups
    | [] => none

def integer? (cs : List Char) : Option Int := do
  let (negative, body) := Text.signed cs
  let n ← unsignedInteger? body
  return if negative then -(n : Int) else n

/-- The base of a numeral that has its mark and underlines, but no digit. -/
def digitlessBase? (cs : List Char) : Option Nat :=
  match (Text.signed cs).2 with
  | '0' :: 'b' :: c :: rest => if (c :: rest).all isUnderline then some 2 else none
  | '0' :: 'x' :: c :: rest => if (c :: rest).all isUnderline then some 16 else none
  | _ => none

/-- The number of digits of a decimal integer, or of the first of its groups; only other bases begin
    with a zero. -/
def decimalDigits (cs : List Char) : Nat :=
  match (Text.signed cs).2 with
  | '0' :: _ => 0
  | body => ((body.takeWhile (· != ':')).filter (!isUnderline ·)).length

/-- The integer that a word in the form of one stands for. -/
def integerScalar (cs : List Char) (i : Int) : Scalar :=
  let digits := decimalDigits cs
  if ScalarFault.mostDigits < digits then .faulty (.manyDigits digits) else .value (.int i)

/-- The exponent of a double: nothing, or `e`, a sign and digits. -/
def exponent? : List Char → Option Int
  | [] => some 0
  | e :: sign :: cs =>
    if (e == 'e' || e == 'E') && (sign == '+' || sign == '-') then do
      let n ← Text.natural? 10 cs
      return if sign == '-' then -(n : Int) else n
    else none
  | _ => none

/-- Digits after a point, and an exponent. -/
def fraction? (negative : Bool) (whole : List Char) (cs : List Char) : Option Double := do
  let (places, rest) := cs.span fun c => c.isDigit || isUnderline c
  let places := places.filter (!isUnderline ·)
  let n ← Text.natural? 10 (whole ++ places)
  return Double.ofDecimal negative n ((← exponent? rest) - places.length)

/-- Groups of sixty with a fraction. -/
def sexagesimalDouble? (negative : Bool) (whole places : List Char) : Option Double := do
  match colonParts whole with
  | first :: g :: gs =>
    let n ← sexagesimal? (← digits? 10 first) (g :: gs)
    if places.all fun c => c.isDigit || isUnderline c then
      fraction? negative (Nat.toDigits 10 n) places
    else none
  | _ => none

def double? (cs : List Char) : Option Double :=
  let (negative, body) := Text.signed cs
  let word := String.ofList body
  if [".inf", ".Inf", ".INF"].contains word then some (Double.infinity negative)
  else if [".nan", ".NaN", ".NAN"].contains (String.ofList cs) then
    some (Double.nan false (.value 0))
  else
    match body.span (· != '.') with
    | ([], '.' :: c :: places) =>
      if c.isDigit && cs.head? == some '.' then fraction? negative [] (c :: places) else none
    | (whole, '.' :: places) => do
      match digits? 10 whole with
      | some _ => fraction? negative (whole.filter (!isUnderline ·)) places
      | none => sexagesimalDouble? negative whole places
    | _ => none

/-! ## Dates -/

/-- The number that the first `least` to `most` digits write, and the rest. -/
def digitsOf (least most : Nat) (cs : List Char) : Option (Nat × List Char) := do
  let ds := (cs.take most).takeWhile Char.isDigit
  if ds.length < least then none
  return (← Text.natural? 10 ds, cs.drop ds.length)

/-- The rest after one character. -/
def after? (c : Char) : List Char → Option (List Char)
  | d :: cs => if c = d then some cs else none
  | [] => none

def isGap (c : Char) : Bool := c == ' ' || c == '\t'

/-- The offset of a clock in minutes, at the end of a word. -/
def offset? (cs : List Char) : Option (Option Int) :=
  match cs.dropWhile isGap with
  | [] => if cs.isEmpty then some none else none
  | ['Z'] => some (some 0)
  | sign :: rest => do
    if sign != '+' && sign != '-' then none
    let (hours, rest) ← digitsOf 1 2 rest
    let minutes ← match rest with
      | [] => some 0
      | ':' :: rest => do
        let (m, rest) ← digitsOf 2 2 rest
        if rest.isEmpty then some m else none
      | _ => none
    let total : Int := hours * 60 + minutes
    return some (if sign = '-' then -total else total)

/-- The microseconds that the digits after a point write, cut after six of them. -/
def micros (cs : List Char) : Nat :=
  let six := cs.take 6
  (Text.natural? 10 (six ++ List.replicate (6 - six.length) '0')).getD 0

/-- What follows a `T` or a gap. -/
def separated? : List Char → Option (List Char)
  | [] => none
  | c :: rest =>
    if c = 'T' || c = 't' then some rest
    else if isGap c then some (rest.dropWhile isGap)
    else none

/-- The time of day after a date, and the offset. -/
def clock? (year month day : Nat) (cs : List Char) : Option Timestamp := do
  let cs ← separated? cs
  let (hour, cs) ← digitsOf 1 2 cs
  let (minute, cs) ← digitsOf 2 2 (← after? ':' cs)
  let (second, cs) ← digitsOf 2 2 (← after? ':' cs)
  let (fraction, cs) := match cs with
    | '.' :: rest => rest.span Char.isDigit
    | _ => ([], cs)
  return ⟨year, month, day, hour, minute, second, micros fraction, ← offset? cs⟩

def time? (cs : List Char) : Option Timestamp := do
  let (year, rest) ← digitsOf 4 4 cs
  let (month, rest) ← digitsOf 1 2 (← after? '-' rest)
  let (day, rest) ← digitsOf 1 2 (← after? '-' rest)
  if rest.isEmpty then
    if cs.length = 10 then some ⟨year, month, day, 0, 0, 0, 0, none⟩ else none
  else clock? year month day rest

/-- Why no calendar and clock show this time, if none do. -/
def calendarFault? (t : Timestamp) : Option CalendarFault :=
  let offset := t.offset.getD 0
  if 1440 ≤ offset.natAbs then some (.offset offset)
  else if t.year = 0 then some (.year 0)
  else if t.month = 0 ∨ 12 < t.month then some .month
  else if t.day = 0 ∨ Timestamp.monthLength t.year t.month < t.day then some .day
  else if 23 < t.hour then some .hour
  else if 59 < t.minute then some .minute
  else if 59 < t.second then some .second
  else none

/-- The date or time that a word in the form of one stands for. -/
def timeScalar (t : Timestamp) : Scalar :=
  match calendarFault? t with
  | some cause => .faulty (.calendar cause)
  | none => .value (.time t)

/-! ## Words -/

def trueWords : List String :=
  ["yes", "Yes", "YES", "true", "True", "TRUE", "on", "On", "ON"]

def falseWords : List String :=
  ["no", "No", "NO", "false", "False", "FALSE", "off", "Off", "OFF"]

def nullWords : List String := ["", "~", "null", "Null", "NULL"]

/-- The meaning of an unquoted word. -/
def Scalar.ofPlain (word : String) : Scalar :=
  let cs := word.toList
  if nullWords.contains word then .value .null
  else if trueWords.contains word then .value (.bool true)
  else if falseWords.contains word then .value (.bool false)
  else if word = "<<" then .merge
  else if word = "=" then .default
  else
    match double? cs, integer? cs, time? cs with
    | some d, _, _ => .value (.double d)
    | none, some i, _ => integerScalar cs i
    | none, none, some t => timeScalar t
    | none, none, none =>
      match digitlessBase? cs with
      | some base => .faulty (.digitless base)
      | none => .text word

/-- Whether an unquoted word is text. -/
def isPlainText (word : String) : Bool :=
  match Scalar.ofPlain word with
  | .text _ => true
  | _ => false

end EntityQuery.Yaml
