/-!
# Blank characters — trimming and case

Which characters count as white space is settled by Unicode's property `White_Space`. Text that is
cleaned before it is looked up also loses the four information separators U+001C to U+001F at its
ends, so there are two classes here and one trimming function that takes the class.
-/

namespace EntityQuery.Text

/-- The ranges of Unicode's `White_Space`. -/
def whiteSpace : List (Nat × Nat) :=
  [(0x09, 0x0d), (0x20, 0x20), (0x85, 0x85), (0xa0, 0xa0), (0x1680, 0x1680), (0x2000, 0x200a),
    (0x2028, 0x2029), (0x202f, 0x202f), (0x205f, 0x205f), (0x3000, 0x3000)]

def isWhite (c : Char) : Bool := whiteSpace.any fun (lo, hi) => lo ≤ c.toNat && c.toNat ≤ hi

/-- White space or an information separator. -/
def isBlank (c : Char) : Bool := isWhite c || (0x1c ≤ c.toNat && c.toNat ≤ 0x1f)

/-- The characters between the first and the last one outside a class. -/
def trim (blank : Char → Bool) (cs : List Char) : List Char :=
  ((cs.dropWhile blank).reverse.dropWhile blank).reverse

/-- Lower case as far as it yields ASCII: the capitals A to Z, and the Kelvin sign, which is the
    only other character with an ASCII lower case. -/
def lower (c : Char) : Char := if c == '\u212a' then 'k' else c.toLower

/-- A word as it is looked up: without blanks at its ends and in lower case. -/
def cleaned (s : String) : String := String.ofList ((trim isBlank s.toList).map lower)

/-- A name as it is matched when case does not count. -/
def folded (s : String) : String := String.ofList (s.toList.map lower)

end EntityQuery.Text
