import ConvSweep.FileTree

/-!
# Tools

A tool is a program that turns its input into output, such as a formatter or a text filter. What
matters of a run is the status it ends with and what it writes.
-/

namespace ConvSweep

/-- What a run of a tool leaves behind. -/
structure Outcome where
  /-- Zero if all went well. -/
  status : Nat
  output : List UInt8
  errors : List UInt8
  deriving DecidableEq, Repr

namespace Outcome

def ok (output : List UInt8) : Outcome := ⟨0, output, []⟩

def fail (status : Nat) (errors : List UInt8) : Outcome := ⟨status, [], errors⟩

end Outcome

/-- A tool answers to arguments and input. -/
abbrev Tool := (args : List String) → (input : List UInt8) → Outcome

/-- Why a tool is not run at all. -/
inductive StartFault
  | unreachable (cause : FileError)
  /-- What is there cannot be run. -/
  | denied
  /-- A word of the command holds a NUL character. -/
  | nulInWord
  deriving DecidableEq, Repr

def StartFault.message : StartFault → String
  | unreachable cause => cause.message
  | denied => "Permission denied (os error 13)"
  | nulInWord => "nul byte found in provided data"

/-- The tools that can be called, by name or by path. -/
abbrev Toolbox := String → Except StartFault Tool

end ConvSweep
