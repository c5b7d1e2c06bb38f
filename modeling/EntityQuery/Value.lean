import EntityQuery.Fault
import EntityQuery.Key
import EntityQuery.Time

/-!
# Property values — what entities hold and queries ask for

A value is a scalar, a point on the globe, a key, a region (circle or rectangle), a list, or a
record of named values. Regions, lists and records can be written in a query or a document, but
have no place in the order of values. The same type serves as the document that structured
queries, index catalogs and settings are read from.
-/

namespace EntityQuery

/-- Whether a double lies between `-limit` and `limit`. NaN does not. -/
def Double.within (limit : Nat) (d : Double) : Bool :=
  (Double.ofInt (-limit)).le d && d.le (Double.ofInt limit)

/-- A point on the globe in degrees. -/
structure GeoPoint where
  latitude  : Double
  longitude : Double
  latitude_within  : latitude.within 90 = true
  longitude_within : longitude.within 180 = true
deriving DecidableEq, Repr

/-- The point with these coordinates, the latitude being checked first. -/
def GeoPoint.of (latitude longitude : Double) : Except Fault GeoPoint :=
  if hlat : latitude.within 90 = true then
    if hlon : longitude.within 180 = true then .ok ⟨latitude, longitude, hlat, hlon⟩
    else .error (.longitude longitude)
  else .error (.latitude latitude)

inductive Value where
  | null
  | bool (b : Bool)
  | int (i : Int)
  | time (t : Time)
  | text (s : String)
  | bytes (octets : List UInt8)
  | double (d : Double)
  | point (p : GeoPoint)
  | key (k : Key)
  | circle (center : GeoPoint) (radius : Double)
  | rectangle (southwest northeast : GeoPoint)
  | list (items : List Value)
  | record (fields : List (String × Value))
deriving Repr

namespace Value

instance : Inhabited Value := ⟨.null⟩

/-- The value of a field; the first one when there are several. -/
def field? (fields : List (String × Value)) (name : String) : Option Value :=
  fields.lookup name

/-- The value of a field, null when it is missing. -/
def fieldOrNull (fields : List (String × Value)) (name : String) : Value :=
  (field? fields name).getD .null

/-- Whether a document counts as something: not null, not zero, not false and not empty. -/
def isPresent : Value → Bool
  | .null => false
  | .bool b => b
  | .int i => i ≠ 0
  | .double d => d.magnitude ≠ 0
  | .text s => !s.isEmpty
  | .bytes octets => !octets.isEmpty
  | .list items => !items.isEmpty
  | .record fields => !fields.isEmpty
  | _ => true

end Value

end EntityQuery
