import EntityQuery.Text.Numeral
import EntityQuery.Value

/-!
# Lenient readings — what a field of a document takes for text, number or flag

Documents are written by people and by tools, so a field that holds a number also takes it as text,
a whole double stands for an integer, and the words of yes and no stand for flags. A text field
takes text alone, or the octets of a text. What a reading refuses it refuses as a whole.
-/

namespace EntityQuery.Value

/-- The text that octets encode in UTF-8. -/
def ofUtf8? (octets : List UInt8) : Option String := String.fromUTF8? ⟨octets.toArray⟩

def asText? : Value → Option String
  | .text s => some s
  | .bytes octets => ofUtf8? octets
  | _ => none

/-- The integer that a double stands for, within the range of 64-bit integers. -/
def wholeNumber? (d : Double) : Option Int := do
  let i ← d.toInt?
  if i.natAbs < Double.twoTo 63 then some i else none

def asInteger? : Value → Option Int
  | .int i => some i
  | .bool b => some (if b then 1 else 0)
  | .double d => wholeNumber? d
  | .text s => Text.integer? s
  | .bytes octets => ofUtf8? octets >>= Text.integer?
  | _ => none

/-- The double that a value stands for. A NaN that is written as text is read at `place`. -/
def asDouble? (place : Place) : Value → Option Double
  | .double d => some d
  | .int i =>
    let d := Double.ofInt i
    if d.isFinite then some d else none
  | .bool b => some (Double.ofInt (if b then 1 else 0))
  | .text s => Text.double? place s
  | .bytes octets => ofUtf8? octets >>= Text.double? place
  | _ => none

/-- The flag that a word stands for. -/
def flagOfWord? (s : String) : Option Bool :=
  let word := String.ofList (s.toList.map Char.toLower)
  if ["1", "t", "y", "on", "yes", "true"].contains word then some true
  else if ["0", "f", "n", "no", "off", "false"].contains word then some false
  else none

def asFlag? : Value → Option Bool
  | .bool b => some b
  | .int i => if i = 0 then some false else if i = 1 then some true else none
  | .double d => match d.toInt? with
    | some i => if i = 0 then some false else if i = 1 then some true else none
    | none => none
  | .text s => flagOfWord? s
  | .bytes octets => ofUtf8? octets >>= flagOfWord?
  | _ => none

/-- A list, each item read in the same way. -/
def asListOf? {α : Type} (read : Value → Option α) : Value → Option (List α)
  | .list items => items.mapM read
  | _ => none

/-- Null, or a value read in some way. -/
def asOptional? {α : Type} (read : Value → Option α) : Value → Option (Option α)
  | .null => some none
  | v => some <$> read v

def isNull : Value → Bool
  | .null => true
  | _ => false

/-- A field that may be missing, and then has a default. -/
def readField? {α : Type} (fields : List (String × Value)) (name : String) (default : α)
    (read : Value → Option α) : Option α :=
  match field? fields name with
  | none => some default
  | some v => read v

/-- Whether a record has no fields but these. -/
def hasOnly (names : List String) (fields : List (String × Value)) : Bool :=
  fields.all fun f => names.contains f.1

/-- A word looked up after cleaning, through its aliases. Octets are looked up as they are. -/
def asWord? {α : Type} (aliases : List (String × String)) (ofWord? : String → Option α) :
    Value → Option α
  | .text s =>
    let word := Text.cleaned s
    ofWord? ((aliases.lookup word).getD word)
  | .bytes octets => ofUtf8? octets >>= ofWord?
  | _ => none

end EntityQuery.Value
