import EntityQuery.Filter
import EntityQuery.Text.Quoted

/-!
# Shown predicates — a predicate on one line

A predicate is shown by its property, its operator and its value, with a space between them. Null,
truth values, numbers, text and lists of these have a form to be shown in; a list is shown in round
brackets, with a comma after a single item so that it cannot be taken for the item itself. Other
values are not shown.

* **`Predicate.shown?`** — the line, if the value can be shown.
-/

namespace EntityQuery

namespace Value

/-- Items with commas between them, and after a single one. -/
def tupled : List String → String
  | [item] => "(" ++ item ++ ",)"
  | items => "(" ++ ", ".intercalate items ++ ")"

mutual

/-- A value as it is shown. -/
def shown? : Value → Option String
  | .null => some "None"
  | .bool true => some "True"
  | .bool false => some "False"
  | .int i => some (toString i)
  | .double d => some d.text
  | .text s => some (Text.quoted s)
  | .list items => tupled <$> shownAll? items
  | _ => none
termination_by structural v => v

def shownAll? : List Value → Option (List String)
  | [] => some []
  | v :: vs => do return (← shown? v) :: (← shownAll? vs)
termination_by structural vs => vs

end

end Value

/-- A predicate as it is shown. -/
def Predicate.shown? (p : Predicate) : Option String :=
  p.test.value.shown?.map fun value =>
    p.property ++ " " ++ p.test.operator.word ++ " " ++ value

end EntityQuery
