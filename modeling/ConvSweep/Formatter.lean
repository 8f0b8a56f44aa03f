import ConvSweep.Text.Blank
import ConvSweep.Text.Lossy
import ConvSweep.Tool.Basic

/-!
# Formatters

A fixed file is passed through a formatter before it is written. Usually that is a tool which is
named by a command; an empty command leaves the file as it is.
-/

namespace ConvSweep

inductive FormatError
  | notStarted (program : String) (cause : StartFault)
  | failed (program : String) (status : Nat) (errors : String)
  /-- The tool writes something that is not UTF-8. -/
  | notText (program : String)
  deriving DecidableEq, Repr

def FormatError.message : FormatError → String
  | notStarted program cause => s!"running {program}: {cause.message}"
  | failed program status errors => s!"{program} failed with exit status: {status}: {errors}"
  | notText program => s!"{program} produced non-UTF-8 output"

abbrev Formatter := String → Except FormatError String

namespace Formatter

/-- Leaves the text as it is. -/
def verbatim : Formatter := .ok

/-- Passes the text through a tool. -/
def ofTool (tools : Toolbox) (program : String) (args : List String) : Formatter := fun source =>
  if (program :: args).any (·.toList.contains '\x00') then
    .error (.notStarted program .nulInWord)
  else
    match tools program with
    | .error cause => .error (.notStarted program cause)
    | .ok tool =>
      let outcome := tool args (Text.bytes source)
      if outcome.status ≠ 0 then
        .error (.failed program outcome.status (trimBlanks (Text.lossy outcome.errors)))
      else
        match Text.ofBytes? outcome.output with
        | some text => .ok text
        | none => .error (.notText program)

/-- The formatter that a command names. -/
def ofCommand (tools : Toolbox) : List String → Formatter
  | [] => verbatim
  | program :: args => ofTool tools program args

end Formatter

end ConvSweep
