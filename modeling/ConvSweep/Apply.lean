import ConvSweep.EditSet
import ConvSweep.FileTree
import ConvSweep.Formatter
import ConvSweep.Deletion

/-!
# Fixing files in place

A file is read, its edits are deleted, the rest is formatted and written back. It is written only
if all of that succeeds. The first file that fails ends the run; files written before stay written.
-/

namespace ConvSweep

/-- How the files of a store `σ` are read and written. -/
structure FileAccess (σ : Type) where
  read : σ → Path → Except FileError (List UInt8)
  write : σ → Path → List UInt8 → Except FileError σ

/-- The files of a tree. -/
def FileTree.access : FileAccess FileTree where
  read := FileTree.read
  write := FileTree.write

/-- Why a file is not fixed. -/
inductive FixFault
  | file (cause : FileError)
  | deletion (cause : DeletionError)
  | format (cause : FormatError)
  deriving DecidableEq, Repr

def FixFault.message : FixFault → String
  | file cause => cause.message
  | deletion cause => cause.message
  | format cause => cause.message

structure FixError where
  path : Path
  cause : FixFault
  deriving DecidableEq, Repr

def FixError.message (e : FixError) : String := s!"{e.path.text}: {e.cause.message}"

/-- A file that was fixed, and the number of conversions that are gone. -/
structure Fixed where
  path : Path
  removed : Nat
  deriving DecidableEq, Repr

def Fixed.message (f : Fixed) : String := s!"Fixed: {f.path.display} ({f.removed} removed)\n"

namespace Apply

variable {σ : Type}

/-- What the content of a file becomes. -/
def fixContent (format : Formatter) (edits : List Edit) (content : List UInt8) :
    Except FixFault (List UInt8) := do
  let source ← (decodeText content).mapError .file
  let rest ← (Deletion.apply source edits).mapError .deletion
  let text ← (format rest).mapError .format
  return Text.bytes text

/-- Fixes one file. -/
def fixFile (files : FileAccess σ) (format : Formatter) (edits : List Edit) (path : Path) (s : σ) :
    Except FixFault σ := do
  let content ← (files.read s path).mapError .file
  let fixed ← fixContent format edits content
  (files.write s path fixed).mapError .file

/-- Fixes files one after the other. What is left of the store is given also when one fails. -/
def fixAll (files : FileAccess σ) (format : Formatter) :
    List (Path × RemovalSet) → σ → σ × Except FixError (List Fixed)
  | [], s => (s, .ok [])
  | (path, removals) :: rest, s =>
    match fixFile files format removals.edits path s with
    | .error cause => (s, .error ⟨path, cause⟩)
    | .ok s =>
      match fixAll files format rest s with
      | (s, .ok fixed) => (s, .ok (⟨path, removals.size⟩ :: fixed))
      | (s, .error e) => (s, .error e)

/-- Fixes every file of an edit set. -/
def run (files : FileAccess σ) (format : Formatter) (set : EditSet) (s : σ) :
    σ × Except FixError (List Fixed) :=
  fixAll files format set.files s

end Apply

end ConvSweep
