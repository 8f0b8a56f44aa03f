import ConvSweep.Text.Digits

/-!
# TOML strings

Strings in double quotes have escapes, strings in single quotes have none. With three quotes they
may run over several lines.
-/

namespace ConvSweep.Toml.Quotes

/-- A piece of text and what follows it. -/
abbrev Taken := Option (List Char × List Char)

/-- The control characters that stand nowhere. -/
def isControl (c : Char) : Bool := (c.toNat < 0x20 && c ≠ '\t') || c.toNat = 0x7f

/-- Takes an end of line off the text, whichever of the two it is. -/
def takeNewline? : List Char → Taken
  | '\n' :: cs => some (['\n'], cs)
  | '\r' :: '\n' :: cs => some (['\r', '\n'], cs)
  | _ => none

/-- The text after an end of line. -/
def newline? (cs : List Char) : Option (List Char) := (takeNewline? cs).map (·.2)

/-- The character that `n` hexadecimal digits number. -/
def hexChar (n : Nat) (cs : List Char) : Option (Char × List Char) := do
  let ds ← (cs.take n).mapM (digitValue? 16)
  if ds.length ≠ n then none
  let code := ofDigits 16 ds
  if (code < 0xd800) || (0xdfff < code && code < 0x110000) then
    some (Char.ofNat code, cs.drop n)
  else none

/-- The character of an escape, after its backslash. -/
def escape : List Char → Option (Char × List Char)
  | 'b' :: cs => some ('\x08', cs)
  | 't' :: cs => some ('\t', cs)
  | 'n' :: cs => some ('\n', cs)
  | 'f' :: cs => some ('\x0c', cs)
  | 'r' :: cs => some ('\r', cs)
  | 'e' :: cs => some ('\x1b', cs)
  | '"' :: cs => some ('"', cs)
  | '\\' :: cs => some ('\\', cs)
  | 'x' :: cs => hexChar 2 cs
  | 'u' :: cs => hexChar 4 cs
  | 'U' :: cs => hexChar 8 cs
  | _ => none

/-- A string in single quotes, after the opening one. -/
def literal : List Char → Taken
  | [] => none
  | '\'' :: cs => some ([], cs)
  | c :: cs =>
    if isControl c then none
    else do
      let (s, rest) ← literal cs
      return (c :: s, rest)

/-- A string in double quotes, after the opening one. `fuel` is at least the number of
characters. -/
def basic : (fuel : Nat) → List Char → Taken
  | 0, _ | _, [] => none
  | _, '"' :: cs => some ([], cs)
  | fuel + 1, '\\' :: cs => do
    let (c, cs) ← escape cs
    let (s, rest) ← basic fuel cs
    return (c :: s, rest)
  | fuel + 1, c :: cs =>
    if isControl c then none
    else do
      let (s, rest) ← basic fuel cs
      return (c :: s, rest)

/-- The end of a string in three quotes: up to two more quotes belong to the text. -/
def closing (quote : Char) (cs : List Char) : Taken :=
  match cs with
  | a :: b :: c :: d :: e :: rest =>
    if a ≠ quote || b ≠ quote || c ≠ quote then none
    else if d = quote && e = quote then some ([quote, quote], rest)
    else if d = quote then some ([quote], e :: rest)
    else some ([], d :: e :: rest)
  | [a, b, c, d] =>
    if a ≠ quote || b ≠ quote || c ≠ quote then none
    else if d = quote then some ([quote], [])
    else some ([], [d])
  | [a, b, c] => if a ≠ quote || b ≠ quote || c ≠ quote then none else some ([], [])
  | _ => none

/-- A string in three single quotes. An end of line in it stays as it is. -/
def longLiteral : (fuel : Nat) → List Char → Taken
  | 0, _ => none
  | fuel + 1, cs =>
    match closing '\'' cs with
    | some found => some found
    | none =>
      match takeNewline? cs, cs with
      | some (eol, rest), _ => do
        let (s, rest) ← longLiteral fuel rest
        return (eol ++ s, rest)
      | none, c :: cs =>
        if isControl c then none
        else do
          let (s, rest) ← longLiteral fuel cs
          return (c :: s, rest)
      | none, [] => none

/-- Blanks within a line. -/
def isSpace (c : Char) : Bool := c = ' ' || c = '\t'

/-- Skips blanks and ends of lines. `fuel` is at least the number of lines. -/
def skipBlankLines : (fuel : Nat) → List Char → List Char
  | 0, cs => cs
  | fuel + 1, cs =>
    match newline? (cs.dropWhile isSpace) with
    | some rest => skipBlankLines fuel rest
    | none => cs.dropWhile isSpace

/-- After a backslash at the end of a line: skips to the next character that is no blank. -/
def joinLine (cs : List Char) : Option (List Char) := do
  let rest ← newline? (cs.dropWhile isSpace)
  return skipBlankLines (rest.length + 1) rest

/-- A string in three double quotes. An end of line in it stays as it is, unless a backslash stands
before it. -/
def longBasic : (fuel : Nat) → List Char → Taken
  | 0, _ => none
  | fuel + 1, cs =>
    match closing '"' cs with
    | some found => some found
    | none =>
      match takeNewline? cs, cs with
      | some (eol, rest), _ => do
        let (s, rest) ← longBasic fuel rest
        return (eol ++ s, rest)
      | none, '\\' :: cs =>
        match joinLine cs with
        | some rest => longBasic fuel rest
        | none => do
          let (c, cs) ← escape cs
          let (s, rest) ← longBasic fuel cs
          return (c :: s, rest)
      | none, c :: cs =>
        if isControl c then none
        else do
          let (s, rest) ← longBasic fuel cs
          return (c :: s, rest)
      | none, [] => none

/-- Drops the end of line that directly follows three opening quotes. -/
def dropFirstNewline (cs : List Char) : List Char := (newline? cs).getD cs

/-- A string on one line, as keys are. -/
def short? (cs : List Char) : Taken :=
  match cs with
  | '"' :: cs => basic cs.length cs
  | '\'' :: cs => literal cs
  | _ => none

/-- A string of any kind. -/
def string? (cs : List Char) : Taken :=
  match cs with
  | '"' :: '"' :: '"' :: cs => longBasic (cs.length + 1) (dropFirstNewline cs)
  | '\'' :: '\'' :: '\'' :: cs => longLiteral (cs.length + 1) (dropFirstNewline cs)
  | cs => short? cs

end ConvSweep.Toml.Quotes
