import ConvSweep.Apply
import ConvSweep.Arguments
import ConvSweep.Diagnostics
import ConvSweep.EditSet.Json
import ConvSweep.Settings.Search

/-!
# The program

Edit sets that were written for several configurations are merged. What they agree on is reported,
written as one edit set, or applied to the files.
-/

namespace ConvSweep

inductive RunError
  /-- An edit set cannot be opened. -/
  | unopened (path : Path)
  /-- A file is no edit set. -/
  | undecoded (path : Path)
  /-- A file with findings cannot be read. -/
  | unread (path : Path) (cause : FileError)
  | unfixed (cause : FixError)
  deriving DecidableEq, Repr

def RunError.message : RunError → String
  | unopened path => s!"failed to open {path.text}"
  | undecoded path => s!"failed to decode {path.text}"
  | unread path cause => s!"{path.text}: {cause.message}"
  | unfixed cause => cause.message

/-- How a run ends. -/
structure RunResult where
  output : String
  /-- The files after the run. -/
  tree : FileTree
  /-- The settings files that were passed over. -/
  ignored : List Path
  /-- The exit status: one if there is something to remove, or if the arguments are wrong. -/
  status : Except RunError Nat

namespace Program

/-! ## Edit sets -/

/-- Reads an edit set. A directory can be opened, but is no edit set. -/
def load (tree : FileTree) (path : Path) : Except RunError EditSet :=
  match tree.read path with
  | .error .isDirectory => .error (.undecoded path)
  | .error _ => .error (.unopened path)
  | .ok bytes =>
    match EditSet.read bytes with
    | .error _ => .error (.undecoded path)
    | .ok set => .ok set

/-- What all the edit sets agree on. -/
def loadMerged (tree : FileTree) : List Path → Except RunError EditSet
  | [] => .ok .empty
  | first :: rest => do
    let start ← load tree first
    rest.foldlM (fun merged path => do return merged.inter (← load tree path)) start

/-! ## What to do with them -/

/-- Reports file by file, as far as they can be read. -/
def report (tree : FileTree) (oneLine : Bool) :
    List (Path × RemovalSet) → String × Except RunError Unit
  | [] => ("", .ok ())
  | (path, removals) :: rest =>
    match tree.readText path with
    | .error e => ("", .error (.unread path e))
    | .ok source =>
      let (text, result) := report tree oneLine rest
      (Diagnostics.file path source removals oneLine ++ text, result)

/-- The command that formats fixed files; an empty one leaves them as they are. -/
def formatCommand (i : Invocation) (settings : Settings) : List String :=
  if i.has .noFormat then []
  else
    match i.formatter with
    | some command => words command
    | none => settings.formatter.getD ["gofmt"]

/-- Does what is asked for with a merged edit set. -/
def perform (tools : Toolbox) (tree : FileTree) (i : Invocation) (settings : Settings)
    (set : EditSet) : String × FileTree × Except RunError Unit :=
  if i.has .json then (set.write ++ "\n", tree, .ok ())
  else if i.has .apply then
    let format := Formatter.ofCommand tools (formatCommand i settings)
    match Apply.run FileTree.access format set tree with
    | (tree, .ok fixed) => (String.join (fixed.map Fixed.message), tree, .ok ())
    | (tree, .error e) => ("", tree, .error (.unfixed e))
  else
    let (text, result) := report tree (i.has .oneLine || settings.oneLine.getD false) set.files
    (text, tree, result)

/-- The directory from which the settings are searched: that of the first edit set. -/
def settingsStart (i : Invocation) : Path :=
  match i.editSets.head?.bind Path.parent? with
  | some dir => if dir.text.isEmpty then ⟨"."⟩ else dir
  | none => ⟨"."⟩

/-- The platforms to list: those of the settings, or every one. -/
def platformList (settings : Settings) : String :=
  String.join ((settings.platforms.getD BuildConfig.platforms).map fun c => c.display ++ "\n")

/-- Runs an invocation. -/
def runInvocation (tools : Toolbox) (tree : FileTree) (i : Invocation) : RunResult :=
  let found := Settings.search tree (settingsStart i)
  let ignored := found.ignored
  if i.has .listPlatforms then
    { output := platformList found.settings, tree, ignored, status := .ok 0 }
  else
    match loadMerged tree i.editSets with
    | .error e => { output := "", tree, ignored, status := .error e }
    | .ok set =>
      let (output, tree, result) := perform tools tree i found.settings set
      { output, tree, ignored, status := result.map fun _ => if set.isEmpty then 0 else 1 }

/-! ## What a run looks at -/

/-- The files that a run looks at first: the edit sets, and where settings may be. -/
def openingFiles (i : Invocation) : List Path :=
  let start := settingsStart i
  i.editSets ++ start :: start.upwards.map (·.join Settings.fileName)

/-- The files that a run looks at once it knows the edit sets. -/
def reportedFiles (tree : FileTree) (i : Invocation) : List Path :=
  match loadMerged tree i.editSets with
  | .ok set => set.files.map (·.1)
  | .error _ => []

/-! ## The whole run -/

/-- Runs the program. -/
def run (tools : Toolbox) (tree : FileTree) (args : List String) : RunResult :=
  match Arguments.parse args with
  | .ok i => runInvocation tools tree i
  | .error .help => { output := Arguments.helpText, tree, ignored := [], status := .ok 0 }
  | .error .version => { output := Arguments.versionText, tree, ignored := [], status := .ok 0 }
  | .error (.usage _) => { output := "", tree, ignored := [], status := .ok 1 }

end Program

end ConvSweep
