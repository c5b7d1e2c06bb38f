import EntityQuery.Text.Numeral

/-!
# Quoted strings of TOML

Between apostrophes everything stands for itself; between quotation marks a backslash begins an
escape. Three quotes in a row begin a string of several lines, in which a line end right after the
quotes is left out, and a backslash at the end of a line leaves out the white space after it. Such
a string may end in up to two quotes of its own. Control characters have to be escaped.

Every reader here gives what it has read and the characters that are left.
-/

namespace EntityQuery.Toml

def isSpace (c : Char) : Bool := c == ' ' || c == '\t'

/-- A control character, which no line may hold. The tab is not one of them. -/
def isControl (c : Char) : Bool := c != '\t' && (c.toNat < 0x20 || c.toNat == 0x7f)

/-- The characters that single letters stand for after a backslash. -/
def escapes : List (Char × Char) :=
  [('b', '\x08'), ('t', '\t'), ('n', '\n'), ('f', '\x0c'), ('r', '\r'), ('"', '"'), ('\\', '\\')]

/-- The character of a code of some digits. -/
def codeChar? (width : Nat) (cs : List Char) : Option (Char × List Char) := do
  let digits := cs.take width
  if digits.length < width then none
  let n ← Text.natural? 16 digits
  if h : n.isValidChar then some (Char.ofNatAux n h, cs.drop width) else none

/-- What a backslash stands for, given the characters after it. -/
def escaped? : List Char → Option (Char × List Char)
  | 'u' :: cs => codeChar? 4 cs
  | 'U' :: cs => codeChar? 8 cs
  | c :: cs => (escapes.lookup c).map (·, cs)
  | [] => none

/-- The characters after a backslash at the end of a line and the white space that follows it. -/
def afterLineEnd? (cs : List Char) : Option (List Char) :=
  match cs.dropWhile isSpace with
  | '\n' :: rest => some (rest.dropWhile fun c => isSpace c || c == '\n')
  | [] => some []
  | _ => none

/-- The rest of a string of one line between quotation marks. -/
def basicFrom : Nat → List Char → Option (List Char × List Char)
  | 0, _ => none
  | _, [] => none
  | fuel + 1, c :: cs =>
    if c == '"' then some ([], cs)
    else if c == '\\' then do
      let (d, rest) ← escaped? cs
      let (text, rest) ← basicFrom fuel rest
      return (d :: text, rest)
    else if isControl c then none
    else do
      let (text, rest) ← basicFrom fuel cs
      return (c :: text, rest)

/-- The quotes of its own that a string of several lines ends in, two at most. -/
def ownQuotes (quote : Char) (cs : List Char) : List Char × List Char :=
  let quotes := (cs.take 2).takeWhile (· == quote)
  (quotes, cs.drop quotes.length)

/-- The rest of a string of several lines. Only one between quotation marks has escapes. -/
def multilineFrom (quote : Char) : Nat → List Char → Option (List Char × List Char)
  | 0, _ => none
  | _, [] => none
  | fuel + 1, c :: cs =>
    if c == quote && cs.take 2 == [quote, quote] then some (ownQuotes quote (cs.drop 2))
    else if c == '\\' && quote == '"' then
      if cs.head?.any fun d => isSpace d || d == '\n' then do
        multilineFrom quote fuel (← afterLineEnd? cs)
      else do
        let (d, rest) ← escaped? cs
        let (text, rest) ← multilineFrom quote fuel rest
        return (d :: text, rest)
    else if isControl c && c != '\n' then none
    else do
      let (text, rest) ← multilineFrom quote fuel cs
      return (c :: text, rest)

/-- The rest of a string of one line between apostrophes. -/
def literalFrom (cs : List Char) : Option (List Char × List Char) :=
  match cs.span (· != '\'') with
  | (text, '\'' :: rest) => if text.any isControl then none else some (text, rest)
  | _ => none

/-- The string of one line that begins here. -/
def line? : List Char → Option (String × List Char)
  | '"' :: cs => do
    let (text, rest) ← basicFrom (cs.length + 1) cs
    return (String.ofList text, rest)
  | '\'' :: cs => do
    let (text, rest) ← literalFrom cs
    return (String.ofList text, rest)
  | _ => none

/-- The string that begins here, of one line or several. -/
def string? (cs : List Char) : Option (String × List Char) :=
  match cs with
  | a :: b :: c :: rest =>
    if a == b && b == c then do
      let rest := if rest.head? == some '\n' then rest.drop 1 else rest
      let (text, rest) ← multilineFrom a (rest.length + 1) rest
      return (String.ofList text, rest)
    else line? cs
  | _ => line? cs

end EntityQuery.Toml
