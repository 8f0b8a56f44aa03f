import ConvSweep.Print.Render
import ConvSweep.Text.Quoted
import ConvSweep.Tree.Slot

/-!
# Whether parentheses must stay

Taking `T(` and `)` away from `T(arg)` may change how the code around it reads. To find out, the
surroundings are rendered twice, with `arg` in place of the conversion and with `(arg)`: the
parentheses are required exactly when the two texts differ.
-/

namespace ConvSweep

/-- Both renderings of the surroundings of a conversion. -/
structure ParensTrial where
  /-- The conversion that is taken away. -/
  call : NodeId
  /-- The slot of its parent that holds it. -/
  slot : Slot
  bare : String
  wrapped : String
  deriving DecidableEq, Repr

namespace ParensTrial

def required (t : ParensTrial) : Bool := t.bare ≠ t.wrapped

/-- The node to render: the parent, or the statement whose header contains it. -/
def surroundings (parent : AnyNode) : List AnyNode → AnyNode
  | [] => parent
  | n :: ancestors =>
    match n with
    | ⟨.ifStmt ..⟩ | ⟨.forStmt ..⟩ | ⟨.rangeStmt ..⟩ | ⟨.switchStmt ..⟩ | ⟨.typeSwitch ..⟩ => n
    | ⟨.block ..⟩ | ⟨.blockStmt ..⟩ | ⟨.caseClause ..⟩ | ⟨.commClause ..⟩ | ⟨.funcLit ..⟩
    | ⟨.gen ..⟩ | ⟨.func ..⟩ | ⟨.file ..⟩ => parent
    | _ => surroundings parent ancestors

/-- Tries `arg` in place of the conversion `call` with these ancestors, the nearest first. For a
chain of conversions, `call` is the outermost one and `arg` what is left of the innermost. There
is no trial if the parent has no slot that holds the conversion. -/
def run (ancestors : List AnyNode) (call : NodeId) (arg : Expr) : Option ParensTrial := do
  let parent ← ancestors.head?
  let slot ← parent.slotOf call
  let around := surroundings parent ancestors
  return {
    call, slot
    bare := around.render (some ⟨call, arg, false⟩)
    wrapped := around.render (some ⟨call, arg, true⟩) }

def message (t : ParensTrial) : String :=
  s!"conversion #{t.call} in {t.slot.toString}: {quoted t.bare} vs {quoted t.wrapped}, parens " ++
    if t.required then "required" else "optional"

end ParensTrial

end ConvSweep
