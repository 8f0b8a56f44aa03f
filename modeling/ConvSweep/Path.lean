/-!
# Paths

A path is kept as it is spelled. What it means are its components: repeated slashes, a slash at
the end and dots between slashes do not count, and two paths are the same when their components
are. A dot that opens a relative path is a component of its own.
-/

namespace ConvSweep

/-- A path as it is spelled. -/
structure Path where
  text : String
  deriving DecidableEq, Repr

namespace Path

inductive Component
  | root
  /-- The dot that opens a relative path. -/
  | current
  | parent
  | name (s : String)
  deriving DecidableEq, Repr

/-- The parts of a text between its slashes. -/
def split : List Char → List (List Char)
  | [] => [[]]
  | c :: cs =>
    if c = '/' then [] :: split cs
    else
      match split cs with
      | part :: parts => (c :: part) :: parts
      | [] => [[c]]

/-- Whether a part between slashes is no component: nothing, or a dot. -/
def isVoid (part : List Char) : Bool := part = [] || part = ['.']

def Component.ofPart (part : List Char) : Component :=
  if part = ['.', '.'] then .parent else .name (String.ofList part)

def isAbsolute (p : Path) : Bool := p.text.toList.head? = some '/'

def components (p : Path) : List Component :=
  let parts := split p.text.toList
  let names := (parts.filter (!isVoid ·)).map Component.ofPart
  if p.isAbsolute then .root :: names
  else if parts.head? = some ['.'] then .current :: names
  else names

/-- The numbers by which components are ordered: the root, a dot, two dots, then the names. -/
def Component.key : Component → List Nat
  | root => [0]
  | current => [1]
  | parent => [2]
  | name s => 3 :: s.toList.map Char.toNat

/-- The numbers by which paths are ordered, component by component. -/
def key (p : Path) : List (List Nat) := p.components.map Component.key

/-! ## Moving about -/

/-- Puts slashes between the parts. -/
def unsplit : List (List Char) → List Char
  | [] => []
  | [part] => part
  | part :: parts => part ++ '/' :: unsplit parts

/-- Drops what is no component from the end; the first part of a relative path may be a dot. -/
def trimVoid (absolute : Bool) (parts : List (List Char)) : List (List Char) :=
  match absolute, parts with
  | false, ['.'] :: rest => ['.'] :: (rest.reverse.dropWhile isVoid).reverse
  | _, parts => (parts.reverse.dropWhile isVoid).reverse

/-- The path without its last component; none for the root and the empty path. -/
def parent? (p : Path) : Option Path :=
  let absolute := p.isAbsolute
  let parts := split p.text.toList
  let parts := trimVoid absolute (if absolute then parts.tail else parts)
  if parts.isEmpty then none
  else
    let rest := trimVoid absolute parts.dropLast
    some ⟨String.ofList (if absolute then '/' :: unsplit rest else unsplit rest)⟩

/-- A file inside a directory. -/
def join (dir : Path) (file : String) : Path :=
  if dir.text.isEmpty || dir.text.toList.getLast? = some '/' then ⟨dir.text ++ file⟩
  else ⟨dir.text ++ "/" ++ file⟩

/-- The path and the directories around it, the nearest first, as far as its spelling goes. -/
def upwards (p : Path) : List Path :=
  go p.text.length p
where
  /-- `n` bounds the number of steps: every step shortens the spelling. -/
  go : Nat → Path → List Path
    | 0, p => [p]
    | n + 1, p =>
      match p.parent? with
      | some q => p :: go n q
      | none => [p]

/-! ## Display -/

/-- Drops the four characters that mark a verbatim path, as often as they stand at the start. -/
def dropVerbatim : List Char → List Char
  | '\\' :: '\\' :: '?' :: '\\' :: cs => dropVerbatim cs
  | cs => cs

/-- The path in messages to people: slashes only, and no `./` at the start. -/
def display (p : Path) : String :=
  let slashed := (dropVerbatim p.text.toList).map fun c => if c = '\\' then '/' else c
  String.ofList <|
    match slashed with
    | '.' :: '/' :: cs => cs
    | cs => cs

end Path

end ConvSweep
