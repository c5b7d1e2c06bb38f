import EntityQuery.Index.Document
import EntityQuery.Index.Need
import EntityQuery.Yaml.Printer

/-!
# Advice — the report on a missing index

The report shows the index to add as it would be written in a catalog, and the full index of the
query beside it when that is another one.
-/

namespace EntityQuery

/-- An index as a catalog of its own, without the line end after it. -/
def Index.rendered (index : Index) : String :=
  let text := Yaml.render (.record [("indexes", .list [index.document])])
  String.ofList (text.toList.reverse.dropWhile Text.isBlank).reverse

/-- The report on an index that is missing. -/
def NormalForm.advice (n : NormalForm) (minimal : Index) : String :=
  "no matching index found. recommended index is:\n" ++ minimal.rendered ++
    match n.neededIndex with
    | some needed =>
      if needed = minimal then ""
      else "\nThe suggested index for this query is:\n" ++ needed.rendered
    | none => ""

end EntityQuery
