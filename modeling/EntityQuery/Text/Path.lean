/-!
# Paths — one spelling for the name of a file

A path is names with slashes between them. Names that are empty or a single dot lead nowhere and are
left out; a slash in front stays, and so do two, which may mean something else than one.
-/

namespace EntityQuery.Text

/-- The slashes in front of a path that count. -/
def pathRoot (path : List Char) : String :=
  match (path.takeWhile (· == '/')).length with
  | 0 => ""
  | 2 => "//"
  | _ => "/"

/-- The shortest spelling of a path. -/
def shortPath (path : String) : String :=
  let names := (path.toList.splitOn '/').filter fun n => n != [] && n != ['.']
  let short := pathRoot path.toList ++ "/".intercalate (names.map String.ofList)
  if short.isEmpty then "." else short

end EntityQuery.Text
