import ConvSweep.Text.Digits

/-!
# Command scripts

A script is a row of pipelines. Words may be quoted, and what a command writes may be sent
elsewhere.
-/

namespace ConvSweep.Tool

/-- Where written bytes go. -/
inductive Sink
  | output
  | errors
  | nowhere
  deriving DecidableEq, Repr

/-- A change of where a command writes. -/
inductive Redirect
  /-- To where another channel goes at that moment. -/
  | toChannel (channel target : Nat)
  /-- To a file. The only file in reach swallows everything. -/
  | toFile (channel : Nat)
  | fromFile
  deriving DecidableEq, Repr

structure Command where
  words : List String
  redirects : List Redirect
  deriving DecidableEq, Repr

/-- When a pipeline is run, by the status of the one before. -/
inductive Link
  | always
  | ifOk
  | ifFailed
  deriving DecidableEq, Repr

abbrev Script := List (Link × List Command)

namespace Script

/-! ## Tokens -/

inductive Token
  | word (text : String)
  | next
  | andThen
  | orElse
  | pipe
  /-- `>`, from a channel to the file named by the next word. -/
  | write (channel : Nat)
  /-- `>&`, from a channel to the channel named by the next word. -/
  | duplicate (channel : Nat)
  | input
  deriving DecidableEq, Repr

/-- How the characters at hand are to be taken. -/
inductive Quote
  | plain
  | single
  | double
  /-- They are skipped up to the end of the line. -/
  | comment

/-- The word that has been read so far: its characters, the last first, and whether any were
quoted. -/
abbrev WordSoFar := Option (List Char × Bool)

def WordSoFar.add (word : WordSoFar) (c : Char) (quoted : Bool) : WordSoFar :=
  match word with
  | some (cs, q) => some (c :: cs, q || quoted)
  | none => some ([c], quoted)

/-- Marks a word as begun, even if it stays empty. -/
def WordSoFar.begun (word : WordSoFar) : WordSoFar :=
  match word with
  | some (cs, _) => some (cs, true)
  | none => some ([], true)

def WordSoFar.close (word : WordSoFar) (tokens : List Token) : List Token :=
  match word with
  | some (cs, _) => .word (String.ofList cs.reverse) :: tokens
  | none => tokens

/-- Ends a word before an arrow: a single digit names the channel. -/
def WordSoFar.arrow (word : WordSoFar) (make : Nat → Token) (tokens : List Token) : List Token :=
  match word with
  | some ([c], false) =>
    if c.isDigit then make (c.toNat - 48) :: tokens else word.close (make 1 :: tokens)
  | word => word.close (make 1 :: tokens)

/-- Cuts a script into tokens; none if a quote is not closed. -/
def tokens? : Quote → WordSoFar → List Char → Option (List Token)
  | .plain, word, [] => some (word.close [])
  | .comment, _, [] => some []
  | _, _, [] => none
  | .comment, word, c :: cs => do
    if c = '\n' then return .next :: (← tokens? .plain none cs) else tokens? .comment word cs
  | .single, word, c :: cs =>
    if c = '\'' then tokens? .plain word cs else tokens? .single (word.add c true) cs
  | .double, word, '\\' :: c :: cs =>
    if c = '\\' || c = '"' || c = '$' then tokens? .double (word.add c true) cs
    else tokens? .double ((word.add '\\' true).add c true) cs
  | .double, word, c :: cs =>
    if c = '"' then tokens? .plain word cs else tokens? .double (word.add c true) cs
  | .plain, word, '\\' :: c :: cs => tokens? .plain (word.add c true) cs
  | .plain, word, '&' :: '&' :: cs => do return word.close (.andThen :: (← tokens? .plain none cs))
  | .plain, word, '|' :: '|' :: cs => do return word.close (.orElse :: (← tokens? .plain none cs))
  | .plain, word, '>' :: '&' :: cs => do return word.arrow .duplicate (← tokens? .plain none cs)
  | .plain, word, '>' :: '>' :: cs => do return word.arrow .write (← tokens? .plain none cs)
  | .plain, word, '>' :: cs => do return word.arrow .write (← tokens? .plain none cs)
  | .plain, word, c :: cs => do
    if c = '\'' then tokens? .single word.begun cs
    else if c = '"' then tokens? .double word.begun cs
    else if c = ' ' || c = '\t' then return word.close (← tokens? .plain none cs)
    else if c = ';' || c = '\n' then return word.close (.next :: (← tokens? .plain none cs))
    else if c = '|' then return word.close (.pipe :: (← tokens? .plain none cs))
    else if c = '<' then return word.close (.input :: (← tokens? .plain none cs))
    else if c = '#' && word.isNone then tokens? .comment none cs
    else tokens? .plain (word.add c false) cs

/-! ## Commands -/

/-- What has been read of a script, the last first. -/
structure Progress where
  command : Command
  pipeline : List Command
  link : Link
  done : Script

def Progress.start : Progress := ⟨⟨[], []⟩, [], .always, []⟩

namespace Progress

def isBlank (d : Progress) : Bool := d.command = ⟨[], []⟩ && d.pipeline.isEmpty

def word (d : Progress) (w : String) : Progress :=
  { d with command := { d.command with words := d.command.words ++ [w] } }

def redirect (d : Progress) (r : Redirect) : Progress :=
  { d with command := { d.command with redirects := d.command.redirects ++ [r] } }

/-- Ends a command of a pipeline. -/
def endCommand (d : Progress) : Progress :=
  { d with command := ⟨[], []⟩, pipeline := d.command :: d.pipeline }

/-- Ends a pipeline; the next one follows by the given link. -/
def endPipeline (d : Progress) (link : Link) : Progress :=
  if d.isBlank then { d with link }
  else
    let d := d.endCommand
    { d with pipeline := [], link, done := (d.link, d.pipeline.reverse) :: d.done }

/-- Reads tokens; none if an arrow leads nowhere. -/
def read? (d : Progress) : List Token → Option Progress
  | [] => some (d.endPipeline .always)
  | .word w :: ts => (d.word w).read? ts
  | .next :: ts => (d.endPipeline .always).read? ts
  | .andThen :: ts => (d.endPipeline .ifOk).read? ts
  | .orElse :: ts => (d.endPipeline .ifFailed).read? ts
  | .pipe :: ts => d.endCommand.read? ts
  | .write channel :: .word _ :: ts => (d.redirect (.toFile channel)).read? ts
  | .duplicate channel :: .word w :: ts => do
    (d.redirect (.toChannel channel (← numeral? 10 w.toList))).read? ts
  | .input :: .word _ :: ts => (d.redirect .fromFile).read? ts
  | _ => none

end Progress

/-- Why a text is no script. -/
inductive Fault
  | openQuote
  | openArrow
  deriving DecidableEq, Repr

def Fault.message : Fault → String
  | openQuote => "Syntax error: Unterminated quoted string"
  | openArrow => "Syntax error: newline unexpected"

/-- Reads a script. -/
def read (text : String) : Except Fault Script :=
  match tokens? .plain none text.toList with
  | none => .error .openQuote
  | some ts =>
    match Progress.start.read? ts with
    | none => .error .openArrow
    | some d => .ok d.done.reverse

end Script

end ConvSweep.Tool
