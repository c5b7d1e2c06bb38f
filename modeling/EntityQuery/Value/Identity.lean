import EntityQuery.Value

/-!
# Identity — when two values are one value

Values of different types are always different values: `1`, `true` and `1.0` are three of them,
and so are a text and the bytes that encode it. Within a type the two zeros are one double, and
times are one on one clock by their readings and on different clocks by their instants. Lists are
compared item by item.

Records are the exception. They are compared as plain documents (`agree`): by their fields in any
order, numbers by their size whatever their type. A record can be told apart from another value,
but it cannot be put into a set; `keyable` says which values can.

* **`Value.same`** — the identity of values, also written `==`.
* **`Value.keyable`** — no record anywhere inside.
* **`Value.distinct`** — a list with later repetitions left out.
-/

namespace EntityQuery

namespace GeoPoint

def same (a b : GeoPoint) : Bool := a.latitude.same b.latitude && a.longitude.same b.longitude

end GeoPoint

namespace Value

/-- A number by its exact size: an integer, or the double when it is no integer. -/
inductive Size where
  | whole (i : Int)
  | other (d : Double)

/-- The size of a truth value or number. -/
def size? : Value → Option Size
  | .bool b => some (.whole (if b then 1 else 0))
  | .int i => some (.whole i)
  | .double d => some (match d.toInt? with
      | some i => .whole i
      | none => .other d)
  | _ => none

def Size.same : Size → Size → Bool
  | .whole a, .whole b => a == b
  | .other a, .other b => a.same b
  | _, _ => false

/-- Whether two scalars agree as plain documents. -/
def scalarsAgree (a b : Value) : Bool :=
  match a.size?, b.size? with
  | some m, some n => m.same n
  | some _, none | none, some _ => false
  | none, none =>
    match a, b with
    | .null, .null => true
    | .time s, .time t => s.same t
    | .text s, .text t => s == t
    | .bytes s, .bytes t => s == t
    | .point p, .point q => p.same q
    | .key k, .key l => k == l
    | .circle c r, .circle d s => c.same d && r.same s
    | .rectangle p q, .rectangle r s => p.same r && q.same s
    | _, _ => false

mutual

/-- Whether two plain documents are equal. -/
def agree : Value → Value → Bool
  | .list as, .list bs => listsAgree as bs
  | .record as, .record bs => as.length == bs.length && fieldsAgree as bs
  | a, b => scalarsAgree a b
termination_by structural a => a

def listsAgree : List Value → List Value → Bool
  | [], [] => true
  | a :: as, b :: bs => agree a b && listsAgree as bs
  | _, _ => false
termination_by structural as => as

/-- Whether each of the first fields is also among the second ones. -/
def fieldsAgree : List (String × Value) → List (String × Value) → Bool
  | [], _ => true
  | a :: as, bs =>
    (match bs.lookup a.1 with
      | some b => agree a.2 b
      | none => false) && fieldsAgree as bs
termination_by structural as => as

end

mutual

/-- Whether two values are one value. -/
def same : Value → Value → Bool
  | .null, .null => true
  | .bool a, .bool b => a == b
  | .int a, .int b => a == b
  | .time a, .time b => a.same b
  | .text a, .text b => a == b
  | .bytes a, .bytes b => a == b
  | .double a, .double b => a.same b
  | .point a, .point b => a.same b
  | .key a, .key b => a == b
  | .circle c r, .circle d s => c.same d && r.same s
  | .rectangle p q, .rectangle r s => p.same r && q.same s
  | .list as, .list bs => allSame as bs
  | .record as, .record bs => agree (.record as) (.record bs)
  | _, _ => false
termination_by structural a => a

/-- Whether two lists are the same item by item. -/
def allSame : List Value → List Value → Bool
  | [], [] => true
  | a :: as, b :: bs => same a b && allSame as bs
  | _, _ => false
termination_by structural as => as

end

instance : BEq Value := ⟨same⟩

mutual

/-- Whether a value can be put into a set. -/
def keyable : Value → Bool
  | .list items => allKeyable items
  | .record _ => false
  | _ => true
termination_by structural a => a

def allKeyable : List Value → Bool
  | [] => true
  | v :: vs => keyable v && allKeyable vs
termination_by structural vs => vs

end

/-- The values of a list, each once, where it is first seen. A record among them is a fault. -/
def distinct (values : List Value) : Except Fault (List Value) :=
  if values.all keyable then .ok values.eraseDups else .error .recordInSet

end Value

end EntityQuery
