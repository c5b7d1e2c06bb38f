import EntityQuery.Value

/-!
# The order of values — one order across all types

Every value that can be compared has an *ordinal*: its rank, which comes from its type, and what
values of that rank are compared by. Integers and times share a rank and are compared as integers,
a time by its instant in microseconds; text and bytes share a rank and are compared octet by octet,
text by its UTF-8 encoding. So two values may compare as equal and still be different values.

    null < integers, times < booleans < text, bytes < doubles < points < keys

NaN is ordered with no double, and comparing it with one gives "equal". Keys are compared by
`Key.cmp`.

* **`Value.ordinal`** — the place of a value, or the fault that it has none.
* **`Value.compare`** — the order of two values.
* **`Comparator`** — an order of values that may refuse some of them.
-/

namespace EntityQuery

/-- What a value is compared by. -/
inductive Ordinal where
  | null
  | integer (i : Int)
  | boolean (b : Bool)
  | octets (bs : List UInt8)
  | double (d : Double)
  | point (p : GeoPoint)
  | key (k : Key)

namespace Ordinal

/-- The number of the type in the union of property values. -/
def rank : Ordinal → Nat
  | .null => 0
  | .integer _ => 1
  | .boolean _ => 2
  | .octets _ => 3
  | .double _ => 4
  | .point _ => 5
  | .key _ => 12

/-- Doubles by value; NaN counts as equal to all of them. -/
def doubleCmp (a b : Double) : Ordering := (a.compare? b).getD .eq

/-- Points by latitude, then by longitude. -/
def pointCmp (a b : GeoPoint) : Ordering :=
  (doubleCmp a.latitude b.latitude).then (doubleCmp a.longitude b.longitude)

/-- Octet by octet; a proper beginning comes first. -/
def octetsCmp : List UInt8 → List UInt8 → Ordering
  | [], [] => .eq
  | [], _ :: _ => .lt
  | _ :: _, [] => .gt
  | a :: as, b :: bs => (compare a.toNat b.toNat).then (octetsCmp as bs)

/-- By rank first, then within the rank. -/
def cmp : Ordinal → Ordinal → Ordering
  | .integer a, .integer b => compare a b
  | .boolean a, .boolean b => compare a b
  | .octets a, .octets b => octetsCmp a b
  | .double a, .double b => doubleCmp a b
  | .point a, .point b => pointCmp a b
  | .key a, .key b => a.cmp b
  | a, b => compare a.rank b.rank

end Ordinal

namespace Value

/-- The octets of a text in UTF-8. -/
def utf8 (s : String) : List UInt8 := s.toList.flatMap String.utf8EncodeChar

/-- What a value is compared by. Regions, lists and records are not compared. -/
def ordinal : Value → Except Fault Ordinal
  | .null => .ok .null
  | .bool b => .ok (.boolean b)
  | .int i => .ok (.integer i)
  | .time t => .ok (.integer t.instant)
  | .text s => .ok (.octets (utf8 s))
  | .bytes bs => .ok (.octets bs)
  | .double d => .ok (.double d)
  | .point p => .ok (.point p)
  | .key k => .ok (.key k)
  | .circle _ _ => .error (.unsupportedValue .circle)
  | .rectangle _ _ => .error (.unsupportedValue .rectangle)
  | .list _ => .error (.unsupportedValue .list)
  | .record _ => .error (.unsupportedValue .record)

/-- The rank of a value's type. -/
def rank (v : Value) : Except Fault Nat := v.ordinal.map Ordinal.rank

/-- The order of two values. The first one is looked at first. -/
def compare (a b : Value) : Except Fault Ordering := do
  let x ← a.ordinal
  let y ← b.ordinal
  return x.cmp y

end Value

/-- An order of values that may refuse some of them. -/
abbrev Comparator := Value → Value → Except Fault Ordering

namespace Comparator

/-- The order of values turned round. -/
def reversed : Comparator := fun a b => Value.compare b a

/-- All values are equal. -/
def indifferent : Comparator := fun _ _ => .ok .eq

end Comparator

end EntityQuery
