import ConvSweep.EditSet
import ConvSweep.Text.Blank
import ConvSweep.Text.LineIndex

/-!
# Diagnostics

Every removal is reported at its opening parenthesis: either `path:line:col:` with the line of the
source and a caret below the parenthesis, or all in one line. Columns are 64-bit numbers, so the one
before column 0 is past the end of every line.
-/

namespace ConvSweep.Diagnostics

/-- The report of one removal. -/
def removal (path : Path) (source : String) (index : LineIndex) (oneLine : Bool) (r : Removal) :
    String :=
  let (line, col) := index.lineCol r.lparen
  let place := s!"{path.display}:{line}:{col}:"
  if oneLine then place ++ " useless conversion\n"
  else
    let text := (index.lineText source line).getD ""
    place ++ "\n" ++ text ++ "\n" ++ blankOut (Text.before text (col.toUInt64 - 1).toNat) ++ "^\n"

/-- The reports of a file, in the order of the parentheses. -/
def file (path : Path) (source : String) (removals : RemovalSet) (oneLine : Bool) : String :=
  String.join (removals.toList.map (removal path source (.ofText source) oneLine))

end ConvSweep.Diagnostics
