import ConvSweep.Tree.Table
import ConvSweep.Types.Basic

/-!
# What the checker knows of a file

The type of every expression, and the object that every name refers to.
-/

namespace ConvSweep

/-- What an expression denotes. -/
inductive Mode
  | type
  | value
  /-- A variable, or another value with an address. -/
  | addressable
  | constant
  | builtin
  deriving DecidableEq, Repr

structure TypeEntry where
  mode : Mode
  type : GoType

def TypeEntry.isType (e : TypeEntry) : Bool := e.mode = .type

/-- The built-in functions that matter to constants; `other` is any other one. -/
inductive Builtin
  | real | imag | complex | other
  deriving DecidableEq, Repr

def Builtin.ofName (name : String) : Builtin :=
  if name = "real" then .real
  else if name = "imag" then .imag
  else if name = "complex" then .complex
  else .other

inductive ObjectKind
  | nil
  | const
  | var
  | typeName
  | func
  | builtin (b : Builtin)
  | pkgName
  deriving DecidableEq, Repr

/-- What a name refers to. -/
structure Object where
  name : String
  kind : ObjectKind
  type : GoType
  /-- Declared by the language rather than by a package. -/
  predeclared : Bool

namespace Object

/-- The predeclared `nil`. -/
def nil : Object := ⟨"nil", .nil, .basic .untypedNil, true⟩

def isNil (o : Object) : Bool := o.predeclared && o.kind = .nil

end Object

structure TypeInfo where
  types : Table TypeEntry
  uses : Table Object

namespace TypeInfo

def empty : TypeInfo := ⟨.empty, .empty⟩

def typeOf (info : TypeInfo) (id : NodeId) : Option TypeEntry := info.types.get? id

def objectOf (info : TypeInfo) (id : NodeId) : Option Object := info.uses.get? id

end TypeInfo

end ConvSweep
