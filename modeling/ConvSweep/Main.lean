import ConvSweep.Program
import ConvSweep.Tool.Shell

/-!
# The command

The files that a run looks at are read beforehand, and those that it changes are written
afterwards.
-/

namespace ConvSweep.Main

/-- Adds what is at a path to a tree, if anything is there. -/
def look (tree : FileTree) (p : Path) : IO FileTree := do
  try
    let real ← IO.FS.realPath p.text
    if ← real.isDir then return tree.addDirectory p
    let content ← IO.FS.readBinFile real
    return tree.add p content.data.toList
  catch _ => return tree

/-- The files that an invocation looks at. -/
def snapshot (i : Invocation) : IO FileTree := do
  let here := (← IO.currentDir).toString
  let tree := (FileTree.empty ((here.splitOn "/").filter (!·.isEmpty))).withSystem
  let tree ← (Program.openingFiles i).foldlM look tree
  (Program.reportedFiles tree i).foldlM look tree

end ConvSweep.Main

open ConvSweep

def main (args : List String) : IO UInt32 := do
  let tree ←
    match Arguments.parse args with
    | .ok i => Main.snapshot i
    | .error _ => pure (.empty [])
  let result := Program.run (Tool.standard tree) tree args
  for p in result.ignored do
    IO.eprintln s!"ignoring {p.text}"
  for (p, content) in result.tree.changesSince tree do
    IO.FS.writeBinFile p.text ⟨content.toArray⟩
  IO.print result.output
  match result.status with
  | .ok code => return code.toUInt32
  | .error e =>
    IO.eprintln s!"Error: {e.message}"
    return 1
