import EntityQuery.Double.Shortest
import EntityQuery.Text.Quoted

/-!
# Faults — why a query, an index or a setting is refused

Each constructor is one cause, with what its report names. `Fault.message?` is the wording; a
cause that is not worded here is reported by its kind alone.
-/

namespace EntityQuery

/-- Why a conjunctive query cannot run as it stands. -/
inductive Illegality where
  | repeatedProjection (names : List String)
  | projectionKeysOnly
  | repeatedGrouping (names : List String)
  | reservedGrouping (name : String)
  | groupingSortsFirst
  | disjunction
  | kindlessFilter
  | kindlessSort
  | notEqual (name : String)
  | manyValued (name : String)
  | twoInequalities (first second : String)
  | projectedEquality (name : String)
  | groupedEquality (name : String)
  | keyValue (keyProperty : String)
  | regionCombined
  | ungroupedInequality (name : String)
  | inequalitySort (sorted inequality : String)
deriving DecidableEq, Repr

/-- The rule that an illegal query breaks. -/
inductive Illegality.Rule where
  | kindRequired
  | unsupportedFilter
  | multipleInequalities
  | firstSort
  | illegalValue
  | illegalProjection
  | illegalGrouping
deriving DecidableEq, Repr

/-- A catalog entry or document that does not describe indexes. -/
inductive CatalogFault where
  | unreadable
  | notMapping
  | notList
  | entryNotMapping (position : Nat)
  | entryInvalid (position : Nat)
deriving DecidableEq, Repr

/-- A date or time of day that no calendar or clock shows. -/
inductive CalendarFault where
  /-- A clock that is a day or more apart from universal time, by so many minutes. -/
  | offset (minutes : Int)
  | year (n : Nat)
  | month
  | day
  | hour
  | minute
  | second
deriving DecidableEq, Repr

/-- A scalar of a document that has the form of a value and stands for none. -/
inductive ScalarFault where
  | calendar (cause : CalendarFault)
  /-- The mark of a base without a digit after it. -/
  | digitless (base : Nat)
  /-- A decimal integer of more digits than are read. -/
  | manyDigits (count : Nat)
  /-- The code of a character beyond the last one. -/
  | codeBeyondLast
  /-- A code beyond the words that codes are kept in. -/
  | codeBeyondWords
deriving DecidableEq, Repr

/-- Why a document is not read: it has not the form of one, or a scalar in it stands for nothing. -/
inductive ReadFault where
  | malformed
  | scalar (cause : ScalarFault)
deriving DecidableEq, Repr

/-- The shapes of values that have no place in the order of values. -/
inductive Shape where
  | circle
  | rectangle
  | list
  | record
deriving DecidableEq, Repr

inductive Fault where
  /-- A value of a shape that has no place in the order of values. -/
  | unsupportedValue (shape : Shape)
  /-- A record where values are collected into a set. -/
  | recordInSet
  | latitude (d : Double)
  | longitude (d : Double)
  | emptyComposite
  | unknownOperator (word : String)
  | unknownDirection (word : String)
  | unknownConnective (word : String)
  /-- A membership test whose value is not a list. -/
  | membershipNeedsList
  /-- A disjunction where only a conjunction can be read. -/
  | disjunction
  | incompleteRegion
  /-- A point of a region with other than two coordinates. -/
  | coordinateCount
  | malformedSelectors
  | malformedIndex
  | malformedSettings
  /-- A catalog entry whose properties are not a collection at all. -/
  | propertiesNotCollection
  | tooDeep (limit : Int)
  | mixedExclusions (names : List String)
  | exclusionSort (sorted excluded : String)
  | twoInequalities (first second : String)
  | inequalitySort (sorted inequality : String)
  /-- A test that conjunctive queries no longer hold. -/
  | unclassified (operator : String)
  | fanOut (total limit : Nat)
  | keysOnlySort (keyProperty sorted : String)
  | illegal (cause : Illegality)
  /-- Containment in a region, where values are only compared. -/
  | containmentUntested
  /-- An entity without the field that should hold its key. -/
  | missingKey (field : String)
  /-- An entity without a key of its own. -/
  | keyless
  | catalog (path : Option String) (cause : CatalogFault)
  | scalar (cause : ScalarFault)
  | missingFile (name : String)
  | malformedConfiguration
deriving DecidableEq, Repr

namespace Illegality

def rule : Illegality → Rule
  | repeatedProjection _ | projectionKeysOnly | projectedEquality _ => .illegalProjection
  | repeatedGrouping _ | reservedGrouping _ | groupingSortsFirst | groupedEquality _
  | ungroupedInequality _ => .illegalGrouping
  | disjunction | notEqual _ | manyValued _ | regionCombined => .unsupportedFilter
  | kindlessFilter | kindlessSort => .kindRequired
  | twoInequalities _ _ => .multipleInequalities
  | keyValue _ => .illegalValue
  | inequalitySort _ _ => .firstSort

def message : Illegality → String
  | repeatedProjection names =>
      "cannot project a property multiple times: " ++ ", ".intercalate names
  | projectionKeysOnly => "projection and keys_only cannot both be set"
  | repeatedGrouping names =>
      "cannot group by a property multiple times: " ++ ", ".intercalate names
  | reservedGrouping name => "group by is not supported for the property: " ++ name
  | groupingSortsFirst =>
      "must specify all group by orderings before any non group by orderings"
  | disjunction => "Filter contains an OR; expand it into disjunctive normal form"
  | kindlessFilter => "kind is required for non-__key__ filters"
  | kindlessSort => "kind is required for all orders except __key__ ascending"
  | notEqual name => "unsupported filter operator for the backend: " ++ name ++ " !="
  | manyValued name => "multi-valued 'in' must be split before execution: " ++ name
  | twoInequalities first second =>
      "Only one inequality filter per query is supported. Encountered both " ++ first ++ " and "
        ++ second
  | projectedEquality name =>
      "cannot use projection on a property with an equality filter: " ++ name
  | groupedEquality name => "cannot use group by on a property with an equality filter: " ++ name
  | keyValue keyProperty => keyProperty ++ " filter value must be a Key"
  | regionCombined =>
      "geo-spatial filters cannot be combined with inequality or ancestor filters"
  | ungroupedInequality name =>
      "inequality filter on " ++ name
        ++ " must also be a group by property when group by properties are set"
  | inequalitySort sorted inequality =>
      "The first sort property must be the same as the property to which the inequality filter is "
        ++ "applied. In your query the first sort property is " ++ sorted
        ++ " but the inequality filter is on " ++ inequality

end Illegality

namespace CatalogFault

def message : CatalogFault → String
  | unreadable => "invalid YAML"
  | notMapping => "expected a mapping with an 'indexes' key"
  | notList => "'indexes' must be a list"
  | entryNotMapping position => "index #" ++ toString position ++ " must be a mapping"
  | entryInvalid position => "index #" ++ toString position ++ " is invalid"

end CatalogFault

namespace CalendarFault

/-- A span of time in days and, if there are any, seconds. -/
def span (minutes : Int) : String :=
  let seconds := minutes.emod 1440 * 60
  "datetime.timedelta(days=" ++ toString (minutes.ediv 1440)
    ++ (if seconds = 0 then "" else ", seconds=" ++ toString seconds) ++ ")"

def message : CalendarFault → String
  | offset minutes =>
      "offset must be a timedelta strictly between -timedelta(hours=24) and "
        ++ "timedelta(hours=24), not " ++ span minutes ++ "."
  | year n => "year " ++ toString n ++ " is out of range"
  | month => "month must be in 1..12"
  | day => "day is out of range for month"
  | hour => "hour must be in 0..23"
  | minute => "minute must be in 0..59"
  | second => "second must be in 0..59"

end CalendarFault

namespace ScalarFault

/-- The most digits of a decimal integer. -/
def mostDigits : Nat := 4300

def message? : ScalarFault → Option String
  | calendar cause => some cause.message
  | digitless base => some ("invalid literal for int() with base " ++ toString base ++ ": ''")
  | manyDigits count =>
      some ("Exceeds the limit (" ++ toString mostDigits ++ " digits) for integer string "
        ++ "conversion: value has " ++ toString count
        ++ " digits; use sys.set_int_max_str_digits() to increase the limit")
  | codeBeyondLast => some "chr() arg not in range(0x110000)"
  | codeBeyondWords => none

end ScalarFault

/-- A reading that may fail for the form of what is read. -/
def readable {α : Type} : Option α → Except ReadFault α
  | some a => .ok a
  | none => .error .malformed

namespace Shape

def word : Shape → String
  | circle => "Circle"
  | rectangle => "Rectangle"
  | list => "list"
  | record => "dict"

end Shape

namespace Fault

/-- The wording of a fault, for the causes that have one. -/
def message? : Fault → Option String
  | unsupportedValue shape => some ("Unsupported property value type: " ++ shape.word)
  | latitude d => some ("Latitude must be between -90 and 90: " ++ d.text)
  | longitude d => some ("Longitude must be between -180 and 180: " ++ d.text)
  | emptyComposite => some "A composite filter must have at least one sub filter"
  | unknownOperator word => some (Text.quoted word ++ " is not a valid FilterOperator")
  | unknownDirection word => some (Text.quoted word ++ " is not a valid SortDirection")
  | unknownConnective word => some (Text.quoted word ++ " is not a valid CompositeFilterOperator")
  | membershipNeedsList => some "Values for 'in' operator must be a list or tuple"
  | disjunction => some "Filter contains an OR; expand it into disjunctive normal form"
  | incompleteRegion =>
      some "A region needs either center/radius_meters or southwest/northeast"
  | tooDeep limit => some ("Filter tree is nested deeper than " ++ toString limit ++ " levels")
  | mixedExclusions names =>
      some ("Queries with NOT_EQUAL filters on different properties are not supported: "
        ++ ", ".intercalate names)
  | exclusionSort sorted excluded =>
      some ("The first sort order must be on the same property as the NOT_EQUAL filter. "
        ++ "The first sort is on " ++ sorted ++ " but the NOT_EQUAL filter is on " ++ excluded)
  | twoInequalities first second =>
      some ("Only one inequality filter per query is supported. Encountered both " ++ first
        ++ " and " ++ second)
  | inequalitySort sorted inequality =>
      some ("The first sort property must be the same as the property to which the inequality "
        ++ "filter is applied. The first sort property is " ++ sorted
        ++ " but the inequality filter is on " ++ inequality)
  | unclassified operator => some ("Unable to categorize query filter operator: " ++ operator)
  | fanOut total limit =>
      some ("Splitting the provided query requires that too many subqueries are merged in memory ("
        ++ toString total ++ " > " ++ toString limit ++ ").")
  | keysOnlySort keyProperty sorted =>
      some ("The provided keys-only multi-query needs to perform some sorting in memory. As a "
        ++ "result, this query can only be sorted by " ++ keyProperty
        ++ ", but it is sorted by " ++ sorted ++ ".")
  | illegal cause => some cause.message
  | containmentUntested => some "<FilterOperator.CONTAINED_IN_REGION: 'contained_in_region'>"
  | missingKey field => some (Text.quoted field)
  | catalog path cause =>
      some (match path with
        | none | some "" => cause.message
        | some p => p ++ ": " ++ cause.message)
  | scalar cause => cause.message?
  | missingFile name => some ("Config file not found at " ++ name)
  | recordInSet | coordinateCount | malformedSelectors | malformedIndex | malformedSettings
  | propertiesNotCollection | keyless | malformedConfiguration => none

end Fault

end EntityQuery
