import ConvSweep.Path
import ConvSweep.Text.Bytes

/-!
# Trees of files

Files and directories by the names that lead to them from the root. A path is followed name by
name, and every name but the last has to be a directory; `..` goes back to the directory before.
-/

namespace ConvSweep

/-- Why a file cannot be read or written. -/
inductive FileError
  | notFound
  /-- Something on the way is a file. -/
  | notDirectory
  | isDirectory
  /-- The path, or a name in it, has too many bytes. -/
  | nameTooLong
  /-- The path holds a NUL character. -/
  | nulInName
  /-- The content is not UTF-8. -/
  | notText
  deriving DecidableEq, Repr

namespace FileError

def reason : FileError → String
  | notFound => "No such file or directory"
  | notDirectory => "Not a directory"
  | isDirectory => "Is a directory"
  | nameTooLong => "File name too long"
  | nulInName => "file name contained an unexpected NUL byte"
  | notText => "stream did not contain valid UTF-8"

/-- The number of an error that the system reports. -/
def number? : FileError → Option Nat
  | notFound => some 2
  | notDirectory => some 20
  | isDirectory => some 21
  | nameTooLong => some 36
  | nulInName | notText => none

def message (e : FileError) : String :=
  match e.number? with
  | some n => s!"{e.reason} (os error {n})"
  | none => e.reason

end FileError

/-- The text of a content, if it is one. -/
def decodeText (content : List UInt8) : Except FileError String :=
  match Text.ofBytes? content with
  | some text => .ok text
  | none => .error .notText

/-- The names that lead from the root to a place. -/
abbrev Place := List String

structure FileTree where
  /-- The directory at which relative paths start. -/
  workingDir : Place
  files : List (Place × List UInt8)
  /-- The directories that are there whether or not a file is below them. -/
  directories : List Place

namespace FileTree

def empty (workingDir : Place) : FileTree := ⟨workingDir, [], []⟩

/-- Directories that every system has, whatever files a tree is about. -/
def systemDirectories : List Place :=
  [["bin"], ["boot"], ["dev"], ["etc"], ["home"], ["lib"], ["media"], ["mnt"], ["opt"], ["proc"],
   ["root"], ["run"], ["sbin"], ["srv"], ["sys"], ["tmp"], ["usr", "bin"], ["usr", "lib"],
   ["usr", "local", "bin"], ["usr", "sbin"], ["usr", "share"], ["var", "lib"], ["var", "tmp"]]

/-- A tree of files with a system around it. -/
def withSystem (t : FileTree) : FileTree :=
  { t with
    files := t.files ++ [(["dev", "null"], [])]
    directories := t.directories ++ systemDirectories }

/-- What is at a place. -/
inductive Entry
  | file (content : List UInt8)
  | directory
  | nothing
  deriving DecidableEq, Repr

/-- A directory is listed, or leads to the working directory, to a listed one or to a file. -/
def isDirectoryAt (t : FileTree) (place : Place) : Bool :=
  place.isPrefixOf t.workingDir || t.directories.any place.isPrefixOf ||
    t.files.any fun f => place.isPrefixOf f.1

def entry (t : FileTree) (place : Place) : Entry :=
  match t.files.lookup place with
  | some content => .file content
  | none => if t.isDirectoryAt place then .directory else .nothing

/-- One step along a path, from a directory. -/
def step (here : Place) (part : List Char) : Place :=
  if Path.isVoid part then here
  else
    match Path.Component.ofPart part with
    | .parent => here.dropLast
    | _ => here ++ [String.ofList part]

/-- The most bytes that a name may have. -/
def maxNameSize : Nat := 255

/-- The most bytes that a path may have. -/
def maxPathSize : Nat := 4095

/-- Follows the parts of a path. -/
def follow (t : FileTree) : Place → List (List Char) → Except FileError Place
  | here, [] => .ok here
  | here, part :: parts =>
    match t.entry here with
    | .directory =>
      if maxNameSize < (String.ofList part).utf8ByteSize then .error .nameTooLong
      else t.follow (step here part) parts
    | .file _ => .error .notDirectory
    | .nothing => .error .notFound

/-- The place that a path leads to. Nothing has to be there yet. -/
def resolve (t : FileTree) (p : Path) : Except FileError Place :=
  let cs := p.text.toList
  if cs.contains '\x00' then .error .nulInName
  else if cs.isEmpty then .error .notFound
  else if maxPathSize < p.text.utf8ByteSize then .error .nameTooLong
  else t.follow (if p.isAbsolute then [] else t.workingDir) (Path.split cs)

/-! ## Files -/

def hasEntry (t : FileTree) (p : Path) : Bool :=
  match t.resolve p with
  | .ok place => t.entry place ≠ .nothing
  | .error _ => false

def isFile (t : FileTree) (p : Path) : Bool :=
  match t.resolve p with
  | .ok place =>
    match t.entry place with
    | .file _ => true
    | _ => false
  | .error _ => false

def read (t : FileTree) (p : Path) : Except FileError (List UInt8) := do
  match t.entry (← t.resolve p) with
  | .file content => return content
  | .directory => throw .isDirectory
  | .nothing => throw .notFound

/-- The content of a file as text. -/
def readText (t : FileTree) (p : Path) : Except FileError String := do
  decodeText (← t.read p)

/-- Puts a file at a place, in place of any other. -/
def put (t : FileTree) (place : Place) (content : List UInt8) : FileTree :=
  { t with files := (place, content) :: t.files.filter (·.1 ≠ place) }

/-- Writes a file. Its directory has to be there. -/
def write (t : FileTree) (p : Path) (content : List UInt8) : Except FileError FileTree := do
  let place ← t.resolve p
  match t.entry place with
  | .directory => throw .isDirectory
  | .file _ => return t.put place content
  | .nothing =>
    match t.entry place.dropLast with
    | .directory => return t.put place content
    | .file _ => throw .notDirectory
    | .nothing => throw .notFound

/-- Adds a file, with all directories on the way. -/
def add (t : FileTree) (p : Path) (content : List UInt8) : FileTree :=
  let start := if p.isAbsolute then [] else t.workingDir
  t.put ((Path.split p.text.toList).foldl step start) content

/-- Adds a directory, with all directories on the way. -/
def addDirectory (t : FileTree) (p : Path) : FileTree :=
  let start := if p.isAbsolute then [] else t.workingDir
  { t with directories := (Path.split p.text.toList).foldl step start :: t.directories }

/-- The files whose content is not the same as in an earlier tree, under absolute paths. -/
def changesSince (t earlier : FileTree) : List (Path × List UInt8) :=
  t.files.filterMap fun (place, content) =>
    if earlier.files.lookup place = some content then none
    else some (⟨"/" ++ "/".intercalate place⟩, content)

/-- The files below the working directory, under their relative paths. -/
def listing (t : FileTree) : List (Path × List UInt8) :=
  t.files.filterMap fun (place, content) =>
    if t.workingDir.isPrefixOf place then
      some (⟨"/".intercalate (place.drop t.workingDir.length)⟩, content)
    else none

end FileTree

end ConvSweep
