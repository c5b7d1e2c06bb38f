import EntityQuery.Index.Document
import EntityQuery.Text.Blank
import EntityQuery.Text.Lines
import EntityQuery.Text.Path
import EntityQuery.Yaml.Printer

/-!
# Catalogs — the indexes that are declared

A catalog lists the indexes declared by hand and, after a marker line, those generated from advice.
It is written as a document with one list of indexes; the marker is a comment, so a reader that does
not know it sees one list. Which entries stand above the marker is found by reading the text above
it on its own.

* **`Catalog.ofText`**, **`Catalog.toText`** — reading and writing.
* **`Catalog.withGenerated`** — a catalog with more indexes, none of them declared twice.
-/

namespace EntityQuery

structure Catalog where
  manual    : List Index := []
  generated : List Index := []
deriving DecidableEq, Repr

namespace Catalog

def indexes (c : Catalog) : List Index := c.manual ++ c.generated

/-! ## Reading -/

/-- The line above the generated entries. -/
def marker : String := "# AUTOGENERATED"

def isMarker (line : String) : Bool :=
  String.ofList (Text.trim Text.isBlank line.toList) == marker

/-- The entries of a document. What is not there, or counts as nothing, is an empty list. -/
def entriesOf (path : Option String) : Option Value → Except Fault (List Value)
  | none | some .null => .ok []
  | some (.record fields) =>
    let entries := Value.fieldOrNull fields "indexes"
    if !entries.isPresent then .ok []
    else
      match entries with
      | .list items => .ok items
      | _ => .error (.catalog path .notList)
  | some _ => .error (.catalog path .notMapping)

/-- The entries of a text. -/
def entries (path : Option String) (text : String) : Except Fault (List Value) :=
  match Yaml.read text with
  | .ok document => entriesOf path document
  | .error .malformed => .error (.catalog path .unreadable)
  | .error (.scalar cause) => .error (.scalar cause)

/-- The text above the first marker, if there is one. -/
def aboveMarker? (text : String) : Option String :=
  let lines := Text.lines text
  if lines.any isMarker then some ("\n".intercalate (lines.takeWhile (!isMarker ·))) else none

/-- The indexes of entries, in order; the first of them has the number `i`. -/
def readEntries (path : Option String) (i : Nat) : List Value → Except Fault (List Index)
  | [] => .ok []
  | entry :: rest => do
    let index ← Index.ofEntry path i entry
    return index :: (← readEntries path (i + 1) rest)

/-- The catalog of some entries, of which the first ones were declared by hand. -/
def ofEntries (path : Option String) (manualCount : Nat) (entries : List Value) :
    Except Fault Catalog := do
  let indexes ← readEntries path 0 entries
  return ⟨indexes.take manualCount, indexes.drop manualCount⟩

/-- The catalog that a text spells. Reports name the path when there is one. -/
def ofText (text : String) (path : Option String) : Except Fault Catalog := do
  let all ← entries path text
  let manualCount ← match aboveMarker? text with
    | none => pure all.length
    | some above => List.length <$> entries path above
  ofEntries path manualCount all

/-- The catalog of a file, empty when there is no file. Lines of a file may end in any way, and
    reports name it by the shortest spelling of its path. -/
def ofFile (contents : Option String) (path : String) : Except Fault Catalog :=
  match contents with
  | none => .ok {}
  | some text => ofText (Text.withLineFeeds text) (some (Text.shortPath path))

/-! ## Writing -/

/-- Some entries of a catalog. -/
def listText (indexes : List Index) : String :=
  if indexes.isEmpty then "" else Yaml.render (.list (indexes.map Index.document))

def toText (c : Catalog) : String :=
  "indexes:\n" ++ listText c.manual
    ++ if c.generated.isEmpty then "" else "\n" ++ marker ++ "\n" ++ listText c.generated

/-! ## Adding -/

/-- Those of some indexes that are not known, each once. -/
def unknown (known : List Index) : List Index → List Index
  | [] => []
  | index :: rest =>
    if known.contains index then unknown known rest
    else index :: unknown (known ++ [index]) rest

/-- A catalog with the indexes that it lacks added to its generated ones. -/
def withGenerated (c : Catalog) (indexes : List Index) : Catalog :=
  { c with generated := c.generated ++ unknown c.indexes indexes }

end Catalog

end EntityQuery
