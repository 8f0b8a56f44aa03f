import ConvSweep.Print.Printer

/-!
# Canonical rendering

The canonical style shows written parentheses only where they are needed. One expression may be
printed in place of another, bare or in parentheses that follow the same rule.
-/

namespace ConvSweep

/-- An expression to be printed wherever the expression with the id `target` stands. It is meant
for a replacement that does not itself contain `target`. -/
structure Substitution where
  target : NodeId
  replacement : Expr
  /-- Wrap the replacement in parentheses, shown where they are needed. -/
  parenthesize : Bool

namespace Substitution

/-- What the replacement shows to the outside: nothing, if it has its own parentheses. -/
def face (sub : Substitution) : Face :=
  if sub.parenthesize then .closed else sub.replacement.face fun _ => none

/-- The faces of the expressions that the substitution replaces. -/
def shown (sub : Substitution) (id : NodeId) : Option Face :=
  if sub.target = id then some sub.face else none

end Substitution

namespace Style

/-- Shows parentheses where the expression inside them needs them. -/
def canonical : Style where
  showsParens ctx x := (x.face fun _ => none).needsParens ctx
  standIn _ := none

/-- The canonical style with one expression standing in for another. -/
def substituting (sub : Substitution) : Style where
  showsParens ctx x := (x.face sub.shown).needsParens ctx
  standIn id :=
    if sub.target = id then
      some fun depth ctx =>
        if sub.parenthesize && (sub.replacement.face fun _ => none).needsParens ctx then
          .text "(" ++ sub.replacement.doc canonical depth .plain ++ .text ")"
        else sub.replacement.doc canonical depth ctx
    else none

end Style

namespace AnyNode

/-- Prints a node on its own; a signature starts with `func`, as the type it describes does. -/
def print (style : Style) (n : AnyNode) : String :=
  (if n.category = .signature then "func" else "") ++ (n.node.doc style 0 .plain).toString

/-- The canonical text of a node. -/
def render (n : AnyNode) (sub : Option Substitution) : String :=
  match sub with
  | some s => n.print (.substituting s)
  | none => n.print .canonical

end AnyNode

end ConvSweep
