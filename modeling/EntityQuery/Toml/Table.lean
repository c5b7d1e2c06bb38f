import EntityQuery.Value

/-!
# Tables — what a configuration has declared so far

A configuration is a table of tables. Names may be declared in several places, but only once each
way: a table that has been opened by its header is not opened again, one that arose from a dotted
key is not opened by a later header, and inline values are closed for good. A list of tables starts
a new table each time its header comes, and everything below it may then be declared anew.
-/

namespace EntityQuery.Toml

/-- The path of a name through tables. -/
abbrev Path := List String

abbrev Table := List (String × Value)

/-- Change the table at a path, making the tables on the way. In a list of tables, the last one is
    meant if lists are entered at all. -/
def updateAt (enterLists : Bool) (f : Table → Option Table) : Path → Table → Option Table
  | [], t => f t
  | k :: ks, t =>
    match t with
    | [] => do return [(k, .record (← updateAt enterLists f ks []))]
    | (name, v) :: rest =>
      if name = k then
        match v with
        | .record fields => do return (name, .record (← updateAt enterLists f ks fields)) :: rest
        | .list items =>
          if !enterLists then none
          else
            match items.getLast? with
            | some (.record fields) => do
              return (name, .list (items.dropLast ++ [.record (← updateAt enterLists f ks fields)]))
                :: rest
            | _ => none
        | _ => none
      else do return (name, v) :: (← updateAt enterLists f (k :: ks) rest)
termination_by path t => (path.length, t.length)

/-- Add a name to a table that does not have it. -/
def addNew (name : String) (v : Value) (t : Table) : Option Table :=
  if (t.lookup name).isSome then none else some (t ++ [(name, v)])

/-- Add an empty table to the list of tables of a name. -/
def addItem (name : String) (t : Table) : Option Table :=
  match t with
  | [] => some [(name, .list [.record []])]
  | (n, v) :: rest =>
    if n = name then
      match v with
      | .list items => some ((n, .list (items ++ [.record []])) :: rest)
      | _ => none
    else (addItem name rest).map ((n, v) :: ·)

/-- How a path has been closed: opened by a header, or with everything below it. -/
inductive Closing where
  | opened
  | frozen
deriving DecidableEq, Repr

/-- The paths that are closed, and those that will be at the next header. -/
structure Closed where
  marks   : List (Path × Closing) := []
  pending : List Path := []

namespace Closed

def isOpened (c : Closed) (path : Path) : Bool := c.marks.contains (path, .opened)

/-- Whether a path or one above it is frozen. -/
def isFrozen (c : Closed) (path : Path) : Bool :=
  c.marks.any fun (p, closing) => closing = .frozen && p.isPrefixOf path

def mark (c : Closed) (path : Path) (closing : Closing) : Closed :=
  { c with marks := (path, closing) :: c.marks }

/-- Close the paths that were waiting for a header. -/
def atHeader (c : Closed) : Closed :=
  { marks := c.pending.map (·, .opened) ++ c.marks, pending := [] }

/-- Open a path and everything below it again. -/
def reopen (c : Closed) (path : Path) : Closed :=
  { c with marks := c.marks.filter fun m => !path.isPrefixOf m.1 }

end Closed

end EntityQuery.Toml
