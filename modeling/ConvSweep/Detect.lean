import ConvSweep.ParensTrial
import ConvSweep.Removal
import ConvSweep.Tree.Walk
import ConvSweep.Types.Display
import ConvSweep.Types.Identity
import ConvSweep.SourceUnit
import ConvSweep.Types.Untyped

/-!
# Finding redundant conversions

A conversion `T(x)` is redundant when `x` already has the type `T`, is not untyped, and the
conversion does not keep two floating-point operations apart. A first walk decides which
conversions are redundant, the outer ones before the inner ones; a second walk says what to delete.
A conversion that goes never counts as an ancestor of what is inside it.
-/

namespace ConvSweep

structure DetectOptions where
  untyped : UntypedMode
  /-- Also remove the conversions that keep floating-point operations apart. -/
  fastMath : Bool
  deriving DecidableEq, Repr

def DetectOptions.default : DetectOptions := ⟨.permissive, false⟩

/-- What is worth telling about a file besides its removals. -/
inductive Note
  | missingCalleeType (call : NodeId)
  | missingArgumentType (call : NodeId)
  /-- A redundant conversion that keeps floating-point operations apart. -/
  | keptApart (type : GoType) (call : NodeId)
  | triedParens (trial : ParensTrial)

namespace Note

/-- Whether the note tells of a gap in what the checker knows. -/
def isWarning : Note → Bool
  | missingCalleeType _ | missingArgumentType _ => true
  | keptApart .. | triedParens _ => false

def message (path : Path) (note : Note) : String :=
  path.text ++ ": " ++
    match note with
    | missingCalleeType call => s!"missing type for callee of #{call}"
    | missingArgumentType call => s!"missing type for argument of #{call}"
    | keptApart type call => s!"keeping {type.display} conversion #{call}"
    | triedParens trial => trial.message

end Note

inductive DetectError
  | missingPosition (node : NodeId)
  | missingSlot (node : NodeId)
  deriving DecidableEq, Repr

def DetectError.message (path : Path) : DetectError → String
  | missingPosition node => s!"{path.text}: no position recorded for node #{node}"
  | missingSlot node => s!"{path.text}: parent of conversion #{node} has no slot holding it"

namespace Detect

/-! ## Which conversions are redundant -/

/-- The nearest ancestor that stays and is not just a pair of parentheses. -/
def outer? (redundant : List NodeId) (ancestors : List AnyNode) : Option AnyNode :=
  ancestors.find? fun
    | ⟨.paren ..⟩ => false
    | ⟨.call id ..⟩ => !redundant.contains id
    | _ => true

/-- Whether a node is arithmetic that could be fused with an operand of it. -/
def isArithmetic : AnyNode → Bool
  | ⟨.binary _ _ op _⟩ => op.isFloatArithmetic
  | ⟨.unary _ op _⟩ => op.isSign
  | _ => false

/-- Whether a conversion to `target` forces rounding between two operations that could otherwise
be fused: the arithmetic it converts, and the arithmetic of which it is an operand. -/
def keepsApart (redundant : List NodeId) (target : GoType) (arg : Expr)
    (ancestors : List AnyNode) : Bool :=
  target.isFloating &&
    (match arg.unparen with
      | .binary _ _ op _ => op.isFloatArithmetic
      | _ => false) &&
    (outer? redundant ancestors).any isArithmetic

/-- What the first walk has found so far. -/
structure Scan where
  /-- The redundant conversions, the latest first. -/
  redundant : List NodeId
  /-- The notes, the latest first. -/
  notes : List Note

namespace Scan

def start : Scan := ⟨[], []⟩

def note (s : Scan) (n : Note) : Scan := { s with notes := n :: s.notes }

/-- Decides the conversion of `arg` by `callee`. -/
def conversion (info : TypeInfo) (options : DetectOptions) (ancestors : List AnyNode)
    (call : NodeId) (callee arg : Expr) (s : Scan) : Scan :=
  match info.typeOf callee.id with
  | none => s.note (.missingCalleeType call)
  | some target =>
    if !target.isType then s
    else
      match info.typeOf arg.id with
      | none => s.note (.missingArgumentType call)
      | some operand =>
        if !identical target.type operand.type || arg.isUntyped info options.untyped then s
        else if !options.fastMath && keepsApart s.redundant target.type arg ancestors then
          s.note (.keptApart target.type call)
        else { s with redundant := call :: s.redundant }

/-- Visits a node. Only a call of one argument, which is not spread, can be a conversion. -/
def visit (info : TypeInfo) (options : DetectOptions) (s : Scan) : Visit → Scan
  | ⟨⟨.call id callee [arg] false⟩, ancestors⟩ =>
    s.conversion info options ancestors id callee arg
  | _ => s

end Scan

/-- The first walk. -/
def scan (file : File) (info : TypeInfo) (options : DetectOptions) : Scan :=
  (AnyNode.visits ⟨file⟩ []).foldl (Scan.visit info options) .start

/-! ## What to delete -/

/-- The outermost conversion around `top` that goes together with it, with its own ancestors. -/
def chainTop (redundant : List NodeId) (top : NodeId) : List AnyNode → NodeId × List AnyNode
  | ancestors@(⟨.call outer _ (arg :: _) _⟩ :: rest) =>
    if arg.id = top && redundant.contains outer then chainTop redundant outer rest
    else (top, ancestors)
  | ancestors => (top, ancestors)

/-- Whether an expression is a conversion that goes. -/
def goesAway (redundant : List NodeId) : Expr → Bool
  | .call id .. => redundant.contains id
  | _ => false

/-- A removal, and the trial that shaped it. -/
structure Cut where
  removal : Removal
  trial : Option ParensTrial

def position {α : Type} (node : NodeId) (found : Option α) : Except DetectError α :=
  match found with
  | some a => .ok a
  | none => .error (.missingPosition node)

/-- What to delete for the redundant conversion `call`. A conversion directly inside that goes too
supplies the parentheses, if any are needed. -/
def cut (unit : SourceUnit) (redundant : List NodeId) (ancestors : List AnyNode) (call : NodeId)
    (arg : Expr) : Except DetectError Cut := do
  let span ← position call (unit.span? call)
  let parens ← position call (unit.parens? call)
  let argSpan ← position arg.id (unit.span? arg.id)
  let strip := Removal.stripParens span.start parens.lparen argSpan parens.rparen
  if goesAway redundant arg then return ⟨strip, none⟩
  let (top, above) := chainTop redundant call ancestors
  match ParensTrial.run above top arg with
  | none => throw (.missingSlot top)
  | some trial =>
    let keep := Removal.keepParens span.start parens.lparen argSpan.stop parens.rparen
    return ⟨if trial.required then keep else strip, some trial⟩

/-- The second walk. -/
def cuts (unit : SourceUnit) (redundant : List NodeId) :
    List Visit → Except DetectError (List Cut)
  | [] => return []
  | ⟨⟨.call id _ [arg] _⟩, ancestors⟩ :: visits => do
    if redundant.contains id then
      let first ← cut unit redundant ancestors id arg
      let rest ← cuts unit redundant visits
      return first :: rest
    else cuts unit redundant visits
  | _ :: visits => cuts unit redundant visits

end Detect

/-- The removals of a file, with the notes in the order in which they were made. -/
structure Findings where
  removals : RemovalSet
  notes : List Note

open Detect in
/-- Finds every redundant conversion of a file. -/
def detect (unit : SourceUnit) (options : DetectOptions) : Except DetectError Findings := do
  let scan := scan unit.file unit.info options
  let cuts ← cuts unit scan.redundant (AnyNode.visits ⟨unit.file⟩ [])
  return {
    removals := .ofList (cuts.map (·.removal))
    notes := scan.notes.reverse ++ cuts.filterMap fun c => c.trial.map .triedParens }

end ConvSweep
