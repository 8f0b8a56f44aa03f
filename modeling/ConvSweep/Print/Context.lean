import ConvSweep.Tree.Node

/-!
# The context of a slot, and what an expression shows to it

An expression printed into a slot needs parentheses when it binds too loosely, when its first
operator would run together with the one before it, or when it would show a composite literal
inside a statement header. `Ctx` is what the slot asks, `Face` is what the expression shows.
-/

namespace ConvSweep

/-- The surroundings of a slot. -/
structure Ctx where
  /-- The lowest precedence that stands without parentheses. -/
  minPrec : Nat
  /-- The operator token printed right before the expression. -/
  after : Option String
  /-- Inside an `if`, `for` or `switch` header, outside any brackets. -/
  inHeader : Bool
  deriving DecidableEq, Repr

namespace Ctx

/-- A slot that asks for nothing. -/
def plain : Ctx := ⟨0, none, false⟩

/-- A slot of a statement header. -/
def header : Ctx := ⟨0, none, true⟩

/-- A slot in the same header, if any, that asks for a precedence. -/
def prec (ctx : Ctx) (minPrec : Nat) : Ctx := ⟨minPrec, none, ctx.inHeader⟩

/-- A slot that follows an operator token. -/
def operand (ctx : Ctx) (minPrec : Nat) (after : String) : Ctx :=
  ⟨minPrec, some after, ctx.inHeader⟩

end Ctx

/-- The precedence of unary operators. -/
def unaryPrec : Nat := 6

/-- The precedence of operands that no operator splits. -/
def primaryPrec : Nat := 7

/-- Whether `left` directly followed by `right` reads as other tokens.
After `chan`, only `<-` is taken over: `chan <-chan T` reads as `chan<- (chan T)`. -/
def tokensFuse (left right : String) : Bool :=
  if left = "chan" then right = "<-"
  else
    match left.toList.getLast?, right.toList.head? with
    | some '+', some '+' | some '-', some '-' | some '&', some '&' | some '&', some '^'
    | some '<', some '-' | some '<', some '<' | some '/', some '*' | some '/', some '/' => true
    | _, _ => false

/-- What an expression shows to the slot it is printed into. -/
structure Face where
  precedence : Nat
  /-- The operator token that the printed text starts with. -/
  opening : Option String
  /-- A composite literal of a named type appears outside brackets. -/
  exposesComposite : Bool
  deriving DecidableEq, Repr

namespace Face

/-- The face of an expression inside parentheses, and of a plain operand. -/
def closed : Face := ⟨primaryPrec, none, false⟩

/-- Whether an expression with this face needs parentheses in the slot. -/
def needsParens (f : Face) (ctx : Ctx) : Bool :=
  f.precedence < ctx.minPrec ||
    (match ctx.after, f.opening with
      | some left, some right => tokensFuse left right
      | _, _ => false) ||
    (ctx.inHeader && f.exposesComposite)

end Face

namespace Node

/-- Whether an expression is a plain or a qualified name, perhaps in parentheses. -/
def isTypeName (e : Node .expr) : Bool :=
  match e.unparen with
  | ident .. | selector .. => true
  | _ => false

/-- The face of an expression, where `shown` gives the face of what stands in for the
expressions with certain ids. -/
def face (shown : NodeId → Option Face) : {c : Category} → Node c → Face
  | _, n =>
    match shown n.id with
    | some f => f
    | none =>
      match n with
      | binary _ x op y =>
        ⟨op.precedence, (x.face shown).opening,
          (x.face shown).exposesComposite || (y.face shown).exposesComposite⟩
      | unary _ op x => ⟨unaryPrec, some op.spelling, (x.face shown).exposesComposite⟩
      | star _ x => ⟨unaryPrec, some "*", (x.face shown).exposesComposite⟩
      | call _ callee _ _ =>
        ⟨primaryPrec, (callee.face shown).opening, (callee.face shown).exposesComposite⟩
      | selector _ x _ => ⟨primaryPrec, (x.face shown).opening, (x.face shown).exposesComposite⟩
      | index _ x _ => ⟨primaryPrec, (x.face shown).opening, (x.face shown).exposesComposite⟩
      | slice _ x _ _ _ => ⟨primaryPrec, (x.face shown).opening, (x.face shown).exposesComposite⟩
      | typeAssert _ x _ => ⟨primaryPrec, (x.face shown).opening, (x.face shown).exposesComposite⟩
      | composite _ type _ => ⟨primaryPrec, none, type.any isTypeName⟩
      | chanType _ dir _ => ⟨unaryPrec, if dir = .recv then some "<-" else none, false⟩
      | funcType _ _ [] => ⟨unaryPrec, none, false⟩
      | _ => .closed

end Node

end ConvSweep
