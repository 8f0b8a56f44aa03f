import ConvSweep.Detect
import ConvSweep.EditSet
import ConvSweep.FrontEnd

/-!
# Merging over build configurations

A conversion may go only if it is redundant under every configuration, so the edit sets of the
configurations are intersected.
-/

namespace ConvSweep

inductive AnalysisError
  | load (config : BuildConfig) (cause : FrontEndError)
  | detect (path : Path) (cause : DetectError)
  deriving DecidableEq, Repr

def AnalysisError.message : AnalysisError → String
  | load config cause => s!"loading {config.display}: {cause.message}"
  | detect path cause => cause.message path

/-- What to look for, and under which configurations. -/
structure Analysis where
  options : DetectOptions
  configs : List BuildConfig

namespace Analysis

/-- The removals of one file, under its path. -/
def report (options : DetectOptions) (unit : SourceUnit) :
    Except AnalysisError (Path × RemovalSet) :=
  match detect unit options with
  | .ok found => .ok (unit.path, found.removals)
  | .error e => .error (.detect unit.path e)

/-- The removals of every file that is loaded for a configuration. A path that is loaded twice
keeps what both loads agree on. -/
def computeEdits (a : Analysis) (frontEnd : FrontEnd) (config : BuildConfig) :
    Except AnalysisError EditSet :=
  match frontEnd config .none with
  | .error e => .error (.load config e)
  | .ok units => do
    let reports ← units.mapM (report a.options)
    return reports.foldl (fun set (path, found) => set.insertFile path found) .empty

/-- Merges one configuration after the other. Without configurations nothing is found. -/
def mergeInOrder (a : Analysis) (frontEnd : FrontEnd) : Except AnalysisError EditSet :=
  match a.configs with
  | [] => .ok .empty
  | first :: rest => do
    let start ← a.computeEdits frontEnd first
    rest.foldlM (fun merged config => do
      return merged.inter (← a.computeEdits frontEnd config)) start

/-- An order in which the sets of several configurations are intersected. -/
inductive Plan
  | one (config : BuildConfig)
  | both (left right : Plan)
  deriving Repr

namespace Plan

/-- Splits the configurations in halves, again and again. -/
def halves (configs : List BuildConfig) : Option Plan :=
  match configs with
  | [] => none
  | [config] => some (.one config)
  | a :: b :: rest =>
    let all := a :: b :: rest
    let half := all.length / 2
    match halves (all.take half), halves (all.drop half) with
    | some left, some right => some (.both left right)
    | some plan, none | none, some plan => some plan
    | none, none => none
termination_by configs.length
decreasing_by all_goals simp; omega

def run (a : Analysis) (frontEnd : FrontEnd) : Plan → Except AnalysisError EditSet
  | one config => a.computeEdits frontEnd config
  | both left right => do
    let l ← run a frontEnd left
    let r ← run a frontEnd right
    return l.inter r

end Plan

/-- Merges the configurations in halves, which may be worked on side by side. -/
def merge (a : Analysis) (frontEnd : FrontEnd) : Except AnalysisError EditSet :=
  match Plan.halves a.configs with
  | some plan => plan.run a frontEnd
  | none => .ok .empty

end Analysis

end ConvSweep
