/-!
# Lines — a text cut at its line ends

A line ends at a line feed, a carriage return, or both together, and at seven rarer characters. The
last line may do without one.
-/

namespace EntityQuery.Text

/-- The characters that end a line. -/
def endsLine (c : Char) : Bool :=
  ['\n', '\r', '\x0b', '\x0c', '\x1c', '\x1d', '\x1e', '\x85', '\u2028', '\u2029'].contains c

/-- The lines of a text whose first line begins with the characters of `line`, read backwards. -/
def linesFrom (line : List Char) : List Char → List (List Char)
  | [] => if line.isEmpty then [] else [line.reverse]
  | '\r' :: '\n' :: cs => line.reverse :: linesFrom [] cs
  | c :: cs => if endsLine c then line.reverse :: linesFrom [] cs else linesFrom (c :: line) cs

/-- The lines of a text, without their ends. -/
def lines (s : String) : List String := (linesFrom [] s.toList).map String.ofList

/-- A text with every carriage return, alone or before a line feed, made a line feed. -/
def withLineFeeds (s : String) : String :=
  let rec go : List Char → List Char
    | [] => []
    | '\r' :: '\n' :: cs => '\n' :: go cs
    | c :: cs => (if c = '\r' then '\n' else c) :: go cs
  String.ofList (go s.toList)

end EntityQuery.Text
