import ConvSweep.BuildConfig
import ConvSweep.Text.Quoted
import ConvSweep.SourceUnit

/-!
# Where checked files come from

Parsing and checking is done elsewhere. A front end hands over the checked files of one
configuration at a time, or says why it cannot.
-/

namespace ConvSweep

inductive FrontEndError
  | parse (path : Path) (message : String)
  | typeCheck (package : String) (message : String)
  /-- An import was asked for although every dependency is loaded from source. -/
  | unexpectedImport (path : String)
  deriving DecidableEq, Repr

def FrontEndError.message : FrontEndError → String
  | parse path message => s!"{path.text}: parse error: {message}"
  | typeCheck package message => s!"type checking {package}: {message}"
  | unexpectedImport path => "unexpected import of " ++ quoted path

/-- Answers the checker's requests for packages; here, by the name of the package. -/
abbrev Importer := String → Except FrontEndError String

/-- The importer of front ends that load everything from source. -/
def Importer.none : Importer := fun path => .error (.unexpectedImport path)

abbrev FrontEnd := BuildConfig → Importer → Except FrontEndError (List SourceUnit)

/-- Files that were checked before, by configuration. -/
structure PreparedFiles where
  units : List (BuildConfig × List SourceUnit)
  /-- Configurations that do not type-check; the last message counts. -/
  failures : List (BuildConfig × String)
  /-- Configurations with a file that does not parse; the last message counts. -/
  parseFailures : List (BuildConfig × Path × String)
  /-- Packages that every load asks for. -/
  imports : List String

namespace PreparedFiles

/-- The front end that serves prepared files. A configuration without files loads nothing. -/
def frontEnd (p : PreparedFiles) : FrontEnd := fun config importer => do
  match p.parseFailures.reverse.lookup config with
  | some (path, message) => throw (.parse path message)
  | none => pure ()
  for path in p.imports do
    let _ ← importer path
  match p.failures.reverse.lookup config with
  | some message => throw (.typeCheck "p" message)
  | none => pure ()
  return (p.units.filter (·.1 = config)).flatMap (·.2)

end PreparedFiles

end ConvSweep
