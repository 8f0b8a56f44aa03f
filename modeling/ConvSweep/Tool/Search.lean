import ConvSweep.Tool.Basic

/-!
# Finding tools

A tool is called by its name, which is looked up where tools are kept, or by a path. A path may
lead to something that cannot be run.
-/

namespace ConvSweep.Tool

/-- The directories where tools are kept. -/
def directories : List Place := [["usr", "bin"], ["bin"]]

/-- A tree of files with the tools in their directories. -/
def install (tools : List (String × Tool)) (tree : FileTree) : FileTree :=
  { tree with
    files := tree.files ++
      directories.flatMap fun dir => tools.map fun (name, _) => (dir ++ [name], []) }

/-- The tool that is kept at a place. -/
def keptAt? (tools : List (String × Tool)) (place : Place) : Option Tool :=
  match place.getLast? with
  | some name => if directories.contains place.dropLast then tools.lookup name else none
  | none => none

/-- The tool that a path leads to. Directories and all other files cannot be run. -/
def atPath (tools : List (String × Tool)) (tree : FileTree) (p : Path) :
    Except StartFault Tool :=
  let tree := install tools tree
  match tree.resolve p with
  | .error cause => .error (.unreachable cause)
  | .ok place =>
    match keptAt? tools place with
    | some tool => .ok tool
    | none =>
      if tree.entry place = .nothing then .error (.unreachable .notFound) else .error .denied

/-- Finds a tool. What has a slash in it is a path, everything else is a name in the directories
where tools are kept; there, `.` and `..` are directories. -/
def find (tools : List (String × Tool)) (tree : FileTree) : Toolbox := fun program =>
  if program.toList.contains '/' then atPath tools tree ⟨program⟩
  else if FileTree.maxNameSize < program.utf8ByteSize then .error (.unreachable .nameTooLong)
  else if program = "." || program = ".." then .error .denied
  else
    match tools.lookup program with
    | some tool => .ok tool
    | none => .error (.unreachable .notFound)

end ConvSweep.Tool
