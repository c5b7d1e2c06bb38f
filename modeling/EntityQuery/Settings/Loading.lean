import EntityQuery.Settings
import EntityQuery.Text.Blank
import EntityQuery.Toml.Document
import EntityQuery.Value.Reading

/-!
# Loading settings — from a file, the environment and the caller

Three sources are laid over each other: a configuration file, environment variables that begin with
a prefix, and values given by the caller. A name that comes again takes a new value and keeps its
place. What results is matched to settings without regard to case, and of several names for one
setting the first counts, so a name in other letters can hide one that was laid over it. A setting
that none of them names is then looked for among the environment variables once more, now without
regard to case in the whole name. Other names are of no concern; a value that does not fit its
setting is a fault.

In the file the settings stand in a section of their own, or else the whole file is the section.
-/

namespace EntityQuery

namespace Settings

/-- The section of a file that holds the settings. -/
def sectionName : String := "queryplan"

/-- The beginning of the environment variables that are settings. -/
def variablePrefix : String := "QUERYPLAN_"

/-- Values by name. -/
abbrev Layer := List (String × Value)

/-- The settings of a file's table. -/
def ofTable (table : Layer) : Layer :=
  match table.lookup sectionName with
  | some (.record fields) => fields
  | _ => table

/-- The settings among environment variables that begin with the prefix as it stands. -/
def ofVariables (environment : List (String × String)) : Layer :=
  environment.filterMap fun (name, value) =>
    if name.startsWith variablePrefix then
      some (Text.folded (name.drop variablePrefix.length).toString, .text value)
    else none

/-- Set a name to a value, where it stands or at the end. -/
def put (name : String) (v : Value) : Layer → Layer
  | [] => [(name, v)]
  | f :: fs => if f.1 = name then (name, v) :: fs else f :: put name v fs

/-- One layer over another. -/
def laidOver (upper lower : Layer) : Layer := upper.foldl (fun layer f => put f.1 f.2 layer) lower

/-- The value for a setting: the first one under its name in any letters. -/
def valueFor? (layer : Layer) (name : String) : Option Value :=
  (layer.find? fun f => Text.folded f.1 = name).map (·.2)

/-- The environment variable for a setting, in any letters; the last of several. -/
def variableFor? (environment : List (String × String)) (name : String) : Option Value :=
  let wanted := Text.folded (variablePrefix ++ name)
  ((environment.filter fun v => Text.folded v.1 = wanted).getLast?).map fun v => .text v.2

/-- A number that is not below a bound. -/
def readNumber? (least : Nat) (v : Value) : Option Nat := do
  let i ← v.asInteger?
  if (least : Int) ≤ i then some i.toNat else none

/-- A name that is not blank. -/
def readName? (v : Value) : Option String := do
  let s ← v.asText?
  if s.toList.all Text.isBlank then none else some s

/-- The settings that values by name describe. -/
def ofValues? (find? : String → Option Value) : Option Settings := do
  let defaults : Settings := {}
  let number (name : String) (least default : Nat) : Option Nat :=
    match find? name with
    | some v => readNumber? least v
    | none => some default
  return {
    maxParallelQueries := ← number "max_parallel_queries" 1 defaults.maxParallelQueries
    ancestorCost := ← number "ancestor_cost" 0 defaults.ancestorCost
    maxFilterDepth := ← number "max_filter_depth" 1 defaults.maxFilterDepth
    keyProperty := ← match find? "key_property" with
      | some v => readName? v
      | none => some defaults.keyProperty }

/-- The settings that some values describe, other values being looked for in the environment. -/
def ofLayer (layer : Layer) (environment : List (String × String)) : Except Fault Settings :=
  match ofValues? fun name => (valueFor? layer name).or (variableFor? environment name) with
  | some settings => .ok settings
  | none => .error .malformedSettings

/-- A configuration file: one that nobody named, one that is not there, or a text. -/
inductive File where
  | unnamed
  | missing (name : String)
  | text (contents : String)

/-- The settings of a file. -/
def File.layer : File → Except Fault Layer
  | .unnamed => .ok []
  | .missing name => .error (.missingFile name)
  | .text contents =>
    match Toml.read contents with
    | .ok table => .ok (ofTable table)
    | .error .malformed => .error .malformedConfiguration
    | .error (.scalar cause) => .error (.scalar cause)

/-- The settings of a file, the environment and the caller, each laid over those before it. -/
def load (file : File) (environment : List (String × String)) (given : Layer) :
    Except Fault Settings := do
  let layer ← file.layer
  ofLayer (laidOver given (laidOver (ofVariables environment) layer)) environment

end Settings

end EntityQuery
