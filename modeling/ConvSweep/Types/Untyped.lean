import ConvSweep.Types.Info

/-!
# Untyped values

A conversion of an untyped constant is never redundant, even where the checker recorded the
converted type for the constant: without the conversion it would take its default type.
-/

namespace ConvSweep

/-- How eagerly expressions count as untyped. -/
inductive UntypedMode
  /-- Follows constants through operators, parentheses, names and the complex-number built-ins. -/
  | permissive
  /-- Only shifts of untyped operands, comparisons and `nil`. -/
  | strict
  deriving DecidableEq, Repr

namespace TypeInfo

/-- Whether the name with this id refers to `nil` or to something of an untyped kind. -/
def isUntypedName (info : TypeInfo) (id : NodeId) : Bool :=
  (info.objectOf id).any fun o => o.isNil || o.type.isUntyped

/-- The built-in function that an expression names, perhaps in parentheses. -/
def builtinOf (info : TypeInfo) (e : Expr) : Option Builtin :=
  match e.unparen with
  | .ident id _ =>
    match info.objectOf id with
    | some ⟨_, .builtin b, _, _⟩ => some b
    | _ => none
  | _ => none

end TypeInfo

namespace Node

def isUntypedPermissive (info : TypeInfo) : {c : Category} → Node c → Bool
  | _, .binary _ x op y =>
    if op.isShift then x.isUntypedPermissive info
    else if op.isComparison then true
    else x.isUntypedPermissive info && y.isUntypedPermissive info
  | _, .unary _ op x => op.isConstant && x.isUntypedPermissive info
  | _, .basicLit .. => true
  | _, .paren _ x => x.isUntypedPermissive info
  | _, .selector _ _ sel => info.isUntypedName sel.id
  | _, .ident id _ => info.isUntypedName id
  | _, .call _ callee [x] _ =>
    match info.builtinOf callee with
    | some .real | some .imag => x.isUntypedPermissive info
    | _ => false
  | _, .call _ callee [re, im] _ =>
    match info.builtinOf callee with
    | some .complex => re.isUntypedPermissive info && im.isUntypedPermissive info
    | _ => false
  | _, _ => false

def isUntypedStrict (info : TypeInfo) : {c : Category} → Node c → Bool
  | _, .binary _ x op _ => if op.isShift then x.isUntypedStrict info else op.isComparison
  | _, .ident id _ => (info.objectOf id).any Object.isNil
  | _, _ => false

/-- Whether an expression yields an untyped value. -/
def isUntyped (info : TypeInfo) (mode : UntypedMode) (e : Node .expr) : Bool :=
  match mode with
  | .permissive => e.isUntypedPermissive info
  | .strict => e.isUntypedStrict info

end Node

end ConvSweep
