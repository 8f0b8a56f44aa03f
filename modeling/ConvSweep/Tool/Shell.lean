import ConvSweep.Tool.Filter
import ConvSweep.Tool.Script
import ConvSweep.Tool.Search

/-!
# Running command scripts

The commands of a script run one after the other on one input. A pipeline hands the output of
each command to the next.
-/

namespace ConvSweep.Tool

open Text (bytes)

/-! ## Writing words -/

/-- The value of up to `n` octal digits, and what follows them. -/
def octal : (n : Nat) → (acc : Nat) → List Char → Nat × List Char
  | 0, acc, cs => (acc, cs)
  | _, acc, [] => (acc, [])
  | n + 1, acc, c :: cs =>
    if '0' ≤ c && c ≤ '7' then octal n (8 * acc + (c.toNat - 48)) cs else (acc, c :: cs)

/-- The byte of an escape, after its backslash, and what follows it. -/
def escape? : List Char → Option (UInt8 × List Char)
  | 'n' :: cs => some (10, cs)
  | 't' :: cs => some (9, cs)
  | 'r' :: cs => some (13, cs)
  | '\\' :: cs => some (92, cs)
  | c :: cs =>
    if '0' ≤ c && c ≤ '7' then
      let (n, rest) := octal 3 0 (c :: cs)
      some (UInt8.ofNat n, rest)
    else none
  | [] => none

/-- Fills a format once: escapes, `%s` for the next word, `%%`. Gives the words that are left.
`fuel` is the number of characters. -/
def fill : (fuel : Nat) → List Char → (words : List String) → List UInt8 × List String
  | 0, _, words | _, [], words => ([], words)
  | fuel + 1, '\\' :: cs, words =>
    match escape? cs with
    | some (b, rest) => before [b] (fill fuel rest words)
    | none => before [92] (fill fuel cs words)
  | fuel + 1, '%' :: '%' :: cs, words => before [37] (fill fuel cs words)
  | fuel + 1, '%' :: 's' :: cs, words =>
    before (bytes (words.headD "")) (fill fuel cs words.tail)
  | fuel + 1, c :: cs, words => before (bytes (String.singleton c)) (fill fuel cs words)
where
  /-- Puts bytes before the others. -/
  before (bs : List UInt8) (rest : List UInt8 × List String) : List UInt8 × List String :=
    (bs ++ rest.1, rest.2)

/-- Fills a format again and again while it uses up words. -/
def fillAll (text : String) : (fuel : Nat) → (words : List String) → List UInt8
  | 0, words => (fill text.length text.toList words).1
  | fuel + 1, words =>
    let (bs, rest) := fill text.length text.toList words
    if rest.isEmpty || rest.length = words.length then bs else bs ++ fillAll text fuel rest

def printf : Tool
  | [], _ => .fail 2 (bytes "sh: 1: printf: usage: printf format [arg ...]\n")
  | text :: words, _ => .ok (fillAll text words.length words)

/-- Writes its words in one line; with `-n`, without the end of the line. -/
def echo : Tool := fun words _ =>
  let line (words : List String) := " ".intercalate words
  let expand (text : String) :=
    let doubled := text.toList.flatMap fun c => if c = '%' then ['%', '%'] else [c]
    (fill doubled.length doubled []).1
  match words with
  | "-n" :: words => .ok (expand (line words))
  | words => .ok (expand (line words) ++ [10])

/-! ## Running -/

/-- The programs that work on the files of a tree. -/
def programs (tree : FileTree) : List (String × Tool) :=
  [("true", succeed), ("false", failing), ("cat", cat tree), ("head", head tree),
   ("tr", exchange), ("echo", echo), ("printf", printf)]

/-- The commands that a script can call. -/
def commands (tree : FileTree) : Toolbox := fun name =>
  if name = ":" then .ok succeed else find (programs tree) tree name

/-- Where the two channels of a command go. -/
structure Channels where
  output : Sink
  errors : Sink

def Channels.redirect (c : Channels) : Redirect → Channels
  | .toChannel 1 2 => { c with output := c.errors }
  | .toChannel 2 1 => { c with errors := c.output }
  | .toFile 1 => { c with output := .nowhere }
  | .toFile 2 => { c with errors := .nowhere }
  | _ => c

/-- Sends what a command writes where it shall go. -/
def deliver (c : Channels) (o : Outcome) : Outcome :=
  let sent (sink : Sink) := (if c.output = sink then o.output else []) ++
    (if c.errors = sink then o.errors else [])
  ⟨o.status, sent .output, sent .errors⟩

/-- The state of a script. -/
structure Shell where
  /-- The input that is left. -/
  input : List UInt8
  output : List UInt8
  errors : List UInt8
  status : Nat
  exited : Bool

namespace Shell

/-- Whether a command reads the input. -/
def readsInput (c : Command) : Bool :=
  match c.words with
  | name :: _ => ["cat", "head", "tr"].contains name && !c.redirects.contains .fromFile
  | [] => false

/-- What is said about a command that cannot be run. -/
def complain (name : String) : StartFault → Outcome
  | .unreachable .nameTooLong => .fail 127 (bytes s!"sh: 1: {name}: File name too long\n")
  | .denied => .fail 126 (bytes s!"sh: 1: {name}: Permission denied\n")
  | _ => .fail 127 (bytes s!"sh: 1: {name}: not found\n")

/-- What a command writes, given its input. -/
def runCommand (tools : Toolbox) (c : Command) (input : List UInt8) : Outcome :=
  let channels := c.redirects.foldl Channels.redirect ⟨.output, .errors⟩
  let input := if c.redirects.contains .fromFile then [] else input
  deliver channels <|
    match c.words with
    | [] => .ok []
    | name :: args =>
      match tools name with
      | .ok tool => tool args input
      | .error fault => complain name fault

/-- What a pipeline writes, given its input. The last command decides on the status. -/
def runPipeline (tools : Toolbox) (input : List UInt8) : List Command → Outcome
  | [] => .ok input
  | [c] => runCommand tools c input
  | c :: cs =>
    let first := runCommand tools c input
    let rest := runPipeline tools first.output cs
    ⟨rest.status, rest.output, first.errors ++ rest.errors⟩

/-- How a script is left, if a pipeline says so. -/
def exit? (s : Shell) : List Command → Option Outcome
  | [⟨["exit"], _⟩] => some ⟨s.status, [], []⟩
  | [⟨"exit" :: n :: _, _⟩] =>
    match numeral? 10 n.toList with
    | some status => some ⟨status % 256, [], []⟩
    | none => some (.fail 2 (bytes s!"sh: 1: exit: Illegal number: {n}\n"))
  | _ => none

/-- Runs one pipeline, if its turn comes. -/
def step (tools : Toolbox) (s : Shell) (link : Link) (pipeline : List Command) : Shell :=
  if s.exited || (link = .ifOk && s.status ≠ 0) || (link = .ifFailed && s.status = 0) then s
  else
    match s.exit? pipeline with
    | some o => { s with errors := s.errors ++ o.errors, status := o.status, exited := true }
    | none =>
      let o := runPipeline tools s.input pipeline
      { s with
        input := if pipeline.head?.any readsInput then [] else s.input
        output := s.output ++ o.output
        errors := s.errors ++ o.errors
        status := o.status }

end Shell

/-- Runs a script on an input. -/
def Script.run (tools : Toolbox) (script : Script) (input : List UInt8) : Outcome :=
  let s := script.foldl (fun (s : Shell) (link, pipeline) => s.step tools link pipeline)
    ⟨input, [], [], 0, false⟩
  ⟨s.status, s.output, s.errors⟩

/-- Runs the script that follows `-c`. -/
def shell (tools : Toolbox) : Tool := fun args input =>
  match args with
  | "-c" :: text :: _ =>
    match Script.read text with
    | .ok script => script.run tools input
    | .error fault => .fail 2 (bytes s!"sh: 1: {fault.message}\n")
  | ["-c"] => .fail 2 (bytes "sh: 0: -c requires an argument\n")
  | _ => .fail 2 (bytes "sh: 0: no script\n")

/-- The tools that formatters are made of. They work on the files of a tree. -/
def standard (tree : FileTree) : Toolbox :=
  find (("sh", shell (commands tree)) :: programs tree) tree

end ConvSweep.Tool
