/-!
# Operators and keywords

The fixed words of the language, each with its spelling, and the binding strength of the
binary operators.
-/

namespace ConvSweep

/-! ## Operators -/

inductive BinaryOp
  | add | sub | mul | quo | rem
  | and | or | xor | shl | shr | andNot
  | logicalAnd | logicalOr
  | eql | neq | lss | gtr | leq | geq
  deriving DecidableEq, Repr

namespace BinaryOp

def spelling : BinaryOp → String
  | add => "+"
  | sub => "-"
  | mul => "*"
  | quo => "/"
  | rem => "%"
  | and => "&"
  | or => "|"
  | xor => "^"
  | shl => "<<"
  | shr => ">>"
  | andNot => "&^"
  | logicalAnd => "&&"
  | logicalOr => "||"
  | eql => "=="
  | neq => "!="
  | lss => "<"
  | gtr => ">"
  | leq => "<="
  | geq => ">="

/-- Binding strength, from 1 (`||`) to 5 (the multiplicative operators). -/
def precedence : BinaryOp → Nat
  | logicalOr => 1
  | logicalAnd => 2
  | eql | neq | lss | gtr | leq | geq => 3
  | add | sub | or | xor => 4
  | mul | quo | rem | shl | shr | and | andNot => 5

def isShift : BinaryOp → Bool
  | shl | shr => true
  | _ => false

/-- The comparisons, whose result is an untyped boolean. -/
def isComparison : BinaryOp → Bool
  | eql | neq | lss | gtr | leq | geq => true
  | _ => false

/-- The operators that a compiler may fuse on floating-point operands. -/
def isFloatArithmetic : BinaryOp → Bool
  | add | sub | mul | quo => true
  | _ => false

end BinaryOp

inductive UnaryOp
  | pos | neg | not | xor | addr | recv
  deriving DecidableEq, Repr

namespace UnaryOp

def spelling : UnaryOp → String
  | pos => "+"
  | neg => "-"
  | not => "!"
  | xor => "^"
  | addr => "&"
  | recv => "<-"

/-- The signs `+` and `-`. -/
def isSign : UnaryOp → Bool
  | pos | neg => true
  | _ => false

/-- The operators that compute a constant from a constant. -/
def isConstant : UnaryOp → Bool
  | pos | neg | not | xor => true
  | addr | recv => false

end UnaryOp

/-- `=`, `:=`, or a binary operator followed by `=`. -/
inductive AssignOp
  | assign
  | define
  | compound (op : BinaryOp)
  deriving DecidableEq, Repr

def AssignOp.spelling : AssignOp → String
  | assign => "="
  | define => ":="
  | compound op => op.spelling ++ "="

/-! ## Keywords -/

/-- The keyword that opens a declaration of specs. -/
inductive DeclKeyword
  | import | const | type | var
  deriving DecidableEq, Repr

def DeclKeyword.spelling : DeclKeyword → String
  | .import => "import"
  | .const => "const"
  | .type => "type"
  | .var => "var"

inductive BranchKind
  | break | continue | goto | fallthrough
  deriving DecidableEq, Repr

def BranchKind.spelling : BranchKind → String
  | .break => "break"
  | .continue => "continue"
  | .goto => "goto"
  | .fallthrough => "fallthrough"

/-- The direction of a channel type. -/
inductive ChanDir
  | both | send | recv
  deriving DecidableEq, Repr

/-- What is written before the element type. -/
def ChanDir.spelling : ChanDir → String
  | both => "chan "
  | send => "chan<- "
  | recv => "<-chan "

inductive LiteralKind
  | int | float | imag | char | string
  deriving DecidableEq, Repr

end ConvSweep
