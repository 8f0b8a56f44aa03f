import ConvSweep.Toml.Quotes
import ConvSweep.Toml.Scalar

/-!
# Reading TOML

A document is read line by line: keys with their values, and headers that say which table the
following keys belong to. A text that is no document is not read at all, and neither is one whose
keys are too long or whose values are nested too deep.
-/

namespace ConvSweep.Toml

namespace Reader

open Quotes (isSpace isControl newline?)

def skipSpaces (cs : List Char) : List Char := cs.dropWhile isSpace

/-- Skips a comment, if there is one. It may not hold control characters. -/
def skipComment (cs : List Char) : Option (List Char) :=
  match cs with
  | '#' :: cs =>
    let isInside (c : Char) := !isControl c
    match cs.dropWhile isInside with
    | [] => some []
    | rest => if (newline? rest).isSome then some rest else none
  | cs => some cs

/-- Ends a line: blanks, perhaps a comment, and the end of the line or of the text. -/
def endLine (cs : List Char) : Option (List Char) := do
  match ← skipComment (skipSpaces cs) with
  | [] => some []
  | rest => newline? rest

/-- Skips blanks, comments and ends of lines. -/
def skipLines : (fuel : Nat) → List Char → Option (List Char)
  | 0, cs => some cs
  | fuel + 1, cs => do
    let rest ← skipComment (skipSpaces cs)
    match newline? rest with
    | some rest => skipLines fuel rest
    | none => some rest

def skipAll (cs : List Char) : Option (List Char) := skipLines (cs.length + 1) cs

/-! ## Keys -/

def isBareKeyChar (c : Char) : Bool := c.isAlphanum || c = '-' || c = '_'

/-- One part of a key. -/
def keyPart (cs : List Char) : Option (String × List Char) :=
  match Quotes.short? cs with
  | some (name, rest) => some (String.ofList name, rest)
  | none =>
    let name := cs.takeWhile isBareKeyChar
    if name.isEmpty then none else some (String.ofList name, cs.dropWhile isBareKeyChar)

/-- A key with the keys of the tables before it. -/
def dottedKey : (fuel : Nat) → List Char → Option (List String × String × List Char)
  | 0, _ => none
  | fuel + 1, cs => do
    let (name, rest) ← keyPart (skipSpaces cs)
    match skipSpaces rest with
    | '.' :: rest =>
      let (path, key, rest) ← dottedKey fuel rest
      return (name :: path, key, rest)
    | rest => return ([], name, rest)

/-- The most parts that a key may have, and the most arrays and inline tables within each other. -/
def maxDepth : Nat := 80

def key (cs : List Char) : Option (List String × String × List Char) := do
  let (path, name, rest) ← dottedKey (cs.length + 1) cs
  if path.length < maxDepth then some (path, name, rest) else none

/-! ## Values -/

mutual

/-- A value at the start of the text. `depth` is how many arrays and inline tables may still be
within each other. -/
def value : (fuel depth : Nat) → List Char → Option (Value × List Char)
  | 0, _, _ => none
  | fuel + 1, depth, cs =>
    match depth, cs with
    | 0, '[' :: _ | 0, '\x7b' :: _ => none
    | depth + 1, '[' :: cs => do
      let (vs, rest) ← items fuel depth cs
      return (.array vs false, rest)
    | depth + 1, '\x7b' :: cs => do
      let (es, rest) ← members fuel depth [] cs
      return (.table .inline es, rest)
    | _, '"' :: _ | _, '\'' :: _ => do
      let (s, rest) ← Quotes.string? cs
      return (.string (String.ofList s), rest)
    | _, cs => Scalar.take cs

/-- The items of an array, after its bracket or a comma. -/
def items : (fuel depth : Nat) → List Char → Option (List Value × List Char)
  | 0, _, _ => none
  | fuel + 1, depth, cs => do
    match ← skipAll cs with
    | ']' :: rest => return ([], rest)
    | cs =>
      let (v, rest) ← value fuel depth cs
      match ← skipAll rest with
      | ',' :: rest =>
        let (vs, rest) ← items fuel depth rest
        return (v :: vs, rest)
      | ']' :: rest => return ([v], rest)
      | _ => none

/-- The entries of an inline table, after its brace or a comma. Lines may end between any two signs
in it, though not within a key. -/
def members : (fuel depth : Nat) → Entries → List Char → Option (Entries × List Char)
  | 0, _, _, _ => none
  | fuel + 1, depth, es, cs => do
    match ← skipAll cs with
    | '\x7d' :: rest => return (es, rest)
    | cs =>
      let (path, name, rest) ← key cs
      match ← skipAll rest with
      | '=' :: rest =>
        let (v, rest) ← value fuel depth (← skipAll rest)
        let (_, es) ← Entries.assign path name v .header es
        match ← skipAll rest with
        | ',' :: rest => members fuel depth es rest
        | '\x7d' :: rest => return (es, rest)
        | _ => none
      | _ => none

end

/-! ## Documents -/

/-- What has been read of a document: its tables, and the one that the next keys belong to. -/
structure State where
  root : Entries
  /-- The keys that lead to the table at hand. -/
  current : List String

/-- A header, after its first bracket. -/
def header (s : State) (cs : List Char) : Option (State × List Char) :=
  match cs with
  | '[' :: cs => do
    let (path, name, rest) ← key cs
    match rest with
    | ']' :: ']' :: rest =>
      return (⟨← Entries.openItem path name s.root, path ++ [name]⟩, rest)
    | _ => none
  | cs => do
    let (path, name, rest) ← key cs
    match rest with
    | ']' :: rest => return (⟨← Entries.openTable path name s.root, path ++ [name]⟩, rest)
    | _ => none

/-- A key and its value. -/
def keyValue (s : State) (cs : List Char) : Option (State × List Char) := do
  let (path, name, rest) ← key cs
  match rest with
  | '=' :: rest =>
    let (v, rest) ← value (rest.length + 1) maxDepth (skipSpaces rest)
    let (_, root) ←
      Entries.change .passed (Entries.assign path name v) s.current .header s.root
    return ({ s with root }, rest)
  | _ => none

/-- The lines of a document. -/
def lines : (fuel : Nat) → State → List Char → Option Entries
  | 0, _, _ => none
  | fuel + 1, s, cs => do
    match ← skipAll cs with
    | [] => return s.root
    | cs =>
      let (s, rest) ←
        match cs with
        | '[' :: cs => header s cs
        | cs => keyValue s cs
      lines fuel s (← endLine rest)

end Reader

/-- Reads a document. A mark of the byte order at its start does not count. -/
def read (text : String) : Option Entries :=
  let cs :=
    match text.toList with
    | '\ufeff' :: cs => cs
    | cs => cs
  Reader.lines (cs.length + 1) ⟨[], []⟩ cs

end ConvSweep.Toml
