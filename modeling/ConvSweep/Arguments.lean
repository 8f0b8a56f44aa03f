import ConvSweep.Path

/-!
# Command-line arguments

Arguments are read from the left. What an option or a row of paths collects is entered when the
next option comes or the arguments end, so a word that nobody knows is found before a fault in
what was collected.
-/

namespace ConvSweep

/-- An option that is there or not. -/
inductive Flag
  | apply
  | noFormat
  | listPlatforms
  | json
  | oneLine
  | verbose
  deriving DecidableEq, Repr

/-- What the arguments ask for. -/
structure Invocation where
  editSets : List Path
  flags : List Flag
  /-- The command that formats fixed files. -/
  formatter : Option String
  deriving DecidableEq, Repr

namespace Invocation

def empty : Invocation := ⟨[], [], none⟩

def has (i : Invocation) (f : Flag) : Bool := i.flags.contains f

end Invocation

/-- Why arguments are not an invocation. -/
inductive UsageError
  | missingArgument
  /-- Two options exclude each other, or one is given twice. -/
  | conflict
  | unknownArgument
  /-- A value is missing or empty. -/
  | invalidValue
  /-- A flag is given a value. -/
  | unneededValue
  deriving DecidableEq, Repr

/-- Why arguments do not lead to a run. -/
inductive Stop
  | help
  | version
  | usage (e : UsageError)
  deriving DecidableEq, Repr

namespace Arguments

/-- What an option does. -/
inductive Action
  | flag (f : Flag)
  | formatter
  | help
  | version
  deriving DecidableEq, Repr

def ofLong? (name : String) : Option Action :=
  [("apply", .flag .apply), ("formatter", .formatter), ("no-format", .flag .noFormat),
   ("list-platforms", .flag .listPlatforms), ("json", .flag .json), ("oneliners", .flag .oneLine),
   ("verbose", .flag .verbose), ("help", .help), ("version", .version)].lookup name

/-- The options of one letter; none of them takes a value. -/
def ofShort? (c : Char) : Option Action :=
  [('v', .flag .verbose), ('h', .help), ('V', .version)].lookup c

/-! ## Reading -/

/-- What has been collected and is not entered yet. -/
inductive Pending
  | nothing
  /-- The option that takes a command, and the command if it has come. -/
  | formatter (command : Option String)
  /-- Paths in a row. -/
  | paths (texts : List String)
  deriving DecidableEq, Repr

structure State where
  found : Invocation
  pending : Pending
  deriving DecidableEq, Repr

abbrev Result := Except Stop

namespace State

def start : State := ⟨.empty, .nothing⟩

def fail {α : Type} (e : UsageError) : Result α := .error (.usage e)

/-- Enters the command of the formatter. -/
def setFormatter (i : Invocation) (command : String) : Result Invocation :=
  if i.formatter.isSome then fail .conflict else .ok { i with formatter := some command }

/-- Enters what has been collected. -/
def settle (s : State) : Result Invocation :=
  match s.pending with
  | .nothing => .ok s.found
  | .formatter none => fail .invalidValue
  | .formatter (some command) => setFormatter s.found command
  | .paths texts =>
    if texts.contains "" then fail .invalidValue
    else .ok { s.found with editSets := s.found.editSets ++ texts.map (⟨·⟩) }

/-- Takes an option without a value. -/
def act (s : State) (a : Action) : Result State := do
  let found ← s.settle
  match a with
  | .flag f =>
    if found.has f then fail .conflict
    else return ⟨{ found with flags := f :: found.flags }, .nothing⟩
  | .formatter => return ⟨found, .formatter none⟩
  | .help => throw .help
  | .version => throw .version

/-- Takes a word that starts with two dashes, given without them. -/
def long (s : State) (word : List Char) : Result State :=
  let name := String.ofList (word.takeWhile (· ≠ '='))
  match ofLong? name, word.dropWhile (· ≠ '=') with
  | none, _ => fail .unknownArgument
  | some a, [] => s.act a
  | some .formatter, _ :: value => do
    return ⟨← setFormatter (← s.settle) (String.ofList value), .nothing⟩
  | some _, _ :: _ => fail .unneededValue

/-- Takes a word of options of one letter. -/
def short (s : State) : List Char → Result State
  | [] => .ok s
  | c :: cs =>
    match ofShort? c with
    | none => fail .unknownArgument
    | some a => do (← s.act a).short cs

/-- Takes a path. -/
def path (s : State) (text : String) : Result State :=
  match s.pending with
  | .paths texts => .ok { s with pending := .paths (texts ++ [text]) }
  | _ => do return ⟨← s.settle, .paths [text]⟩

/-- Takes a word that is no option: the command that is due, or a path. -/
def plain (s : State) (text : String) : Result State :=
  match s.pending with
  | .formatter none => .ok { s with pending := .formatter (some text) }
  | _ => s.path text

/-- Takes the words one after the other. After two dashes alone there are only paths. -/
def read (s : State) : List String → Result State
  | [] => .ok s
  | text :: rest =>
    match text.toList with
    | ['-', '-'] => rest.foldlM path s
    | '-' :: '-' :: word => do (← s.long word).read rest
    | ['-'] => do (← s.plain text).read rest
    | '-' :: word => do (← s.short word).read rest
    | _ => do (← s.plain text).read rest

end State

/-! ## Checking -/

/-- Options that exclude each other. -/
def hasConflict (i : Invocation) : Bool :=
  (i.has .json && i.has .apply) || (i.has .noFormat && i.formatter.isSome)

/-- Whether something is missing: a path, unless only platforms are listed; and what asks for a
format needs `apply`, unless `json` rules that out. -/
def lacksArgument (i : Invocation) : Bool :=
  (i.editSets.isEmpty && !i.has .listPlatforms) ||
    ((i.has .noFormat || i.formatter.isSome) && !i.has .apply && !i.has .json)

/-- Reads arguments. -/
def parse (args : List String) : Except Stop Invocation := do
  let s ← State.start.read args
  let i ← s.settle
  if hasConflict i then throw (.usage .conflict)
  else if lacksArgument i then throw (.usage .missingArgument)
  else return i

/-! ## Texts -/

def versionText : String := "unconvert 0.1.0\n"

def helpText : String :=
  "\n".intercalate
    ["unconvert - Remove unnecessary Go type conversions",
     "",
     "Usage: unconvert [OPTIONS] [EDIT_SET]...",
     "",
     "Arguments:",
     "  [EDIT_SET]...  Serialized edit sets, one per build configuration. " ++
       "Only removals present in every set are kept",
     "",
     "Options:",
     "      --apply            Rewrite the files in place instead of reporting",
     "      --formatter <CMD>  Command used to reformat rewritten files, e.g. \"gofmt -s\". " ++
       "Overrides the `formatter` setting of the configuration file. Defaults to gofmt",
     "      --no-format        Write rewritten files without reformatting them",
     "      --list-platforms   Print the configurations to analyze, " ++
       "one `os/arch` per line, and exit",
     "      --json             Print the merged edit set as JSON instead of diagnostics",
     "      --oneliners        Print one line per finding: `file:line:col: useless conversion`",
     "  -v, --verbose          Enable verbose output for debugging (shows per-file progress)",
     "  -h, --help             Print help",
     "  -V, --version          Print version",
     "",
     "CONFIGURATION FILE (.unconvert.toml):",
     "  Searched from the first edit set's directory upwards.",
     "",
     "  [unconvert]",
     "  oneliners = false          # One line per finding",
     "  formatter = [\"gofmt\"]      # Reformat files after --apply; [] disables",
     "",
     "  # Configurations printed by --list-platforms (default: every supported one)",
     "  platforms = [\x7b os = \"linux\", arch = \"amd64\" \x7d, " ++
       "\x7b os = \"windows\", arch = \"amd64\" \x7d]"]
    ++ "\n"

end Arguments

end ConvSweep
