import EntityQuery.Text.Unseen

/-!
# Quoted text — a text as it is shown in a message

Text is quoted with apostrophes, or with quotation marks when it holds apostrophes and no
quotation mark. The quoting character and the backslash get a backslash in front, tab and the two
line ends have escapes of their own, and every other character that cannot be seen is written by
its code in the shortest of three widths.
-/

namespace EntityQuery.Text

/-- A number in lower-case hexadecimal, padded with zeros to a width. -/
def hex (width n : Nat) : List Char :=
  let cs := Nat.toDigits 16 n
  List.replicate (width - cs.length) '0' ++ cs

/-- A character by its code: two, four or eight hexadecimal digits. -/
def escapeByCode (c : Char) : List Char :=
  if c.toNat ≤ 0xff then '\\' :: 'x' :: hex 2 c.toNat
  else if c.toNat ≤ 0xffff then '\\' :: 'u' :: hex 4 c.toNat
  else '\\' :: 'U' :: hex 8 c.toNat

def escape (quote c : Char) : List Char :=
  if c = quote ∨ c = '\\' then ['\\', c]
  else if c = '\t' then ['\\', 't']
  else if c = '\n' then ['\\', 'n']
  else if c = '\r' then ['\\', 'r']
  else if isUnseen c then escapeByCode c
  else [c]

/-- A text between quotes. -/
def quoted (s : String) : String :=
  let cs := s.toList
  let quote := if cs.contains '\'' && !cs.contains '"' then '"' else '\''
  String.ofList (quote :: (cs.flatMap (escape quote) ++ [quote]))

end EntityQuery.Text
