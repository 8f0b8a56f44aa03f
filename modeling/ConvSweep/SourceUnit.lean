import ConvSweep.Path
import ConvSweep.Print.Layout
import ConvSweep.Types.Info

/-! # One checked file -/

namespace ConvSweep

/-- A parsed and checked file under one build configuration. -/
structure SourceUnit where
  path : Path
  source : String
  file : File
  info : TypeInfo
  positions : Positions

namespace SourceUnit

/-- The unit of a file that is printed as it stands. -/
def ofFile (path : Path) (file : File) (info : TypeInfo) : SourceUnit :=
  { path, file, info, source := file.layout.text, positions := file.layout.positions }

def span? (unit : SourceUnit) (id : NodeId) : Option Span := unit.positions.spans.get? id

def parens? (unit : SourceUnit) (call : NodeId) : Option ParenPair :=
  unit.positions.parens.get? call

end SourceUnit

end ConvSweep
