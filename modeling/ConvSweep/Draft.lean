import ConvSweep.Types.Info
import ConvSweep.SourceUnit

/-!
# Files under construction

A draft hands out the ids of nodes and records types as the nodes are built, the way a checker
would. What is finished is laid out as a checked file.
-/

namespace ConvSweep

structure Draft where
  /-- The last id that was given to a node. -/
  lastId : NodeId
  /-- The last identity that was given to a declared type. -/
  lastType : Nat
  info : TypeInfo

namespace Draft

abbrev Build := StateM Draft

def start : Draft := ⟨0, 0, .empty⟩

/-- A fresh id. -/
def next : Build NodeId := do
  let d ← getThe Draft
  set { d with lastId := d.lastId + 1 }
  return d.lastId + 1

def record (id : NodeId) (entry : TypeEntry) : Build Unit :=
  modify fun d => { d with info := { d.info with types := d.info.types.insert id entry } }

def recordUse (id : NodeId) (object : Object) : Build Unit :=
  modify fun d => { d with info := { d.info with uses := d.info.uses.insert id object } }

/-- Records an entry if there is one. -/
def recordSome (id : NodeId) (entry : Option TypeEntry) : Build Unit :=
  match entry with
  | some e => record id e
  | none => return

def typeOf (e : Expr) : Build (Option TypeEntry) := return (← getThe Draft).info.typeOf e.id

def valueType (e : Expr) : Build (Option GoType) := return (← typeOf e).map (·.type)

/-- Changes the type of an expression and keeps its mode. -/
def retype (e : Expr) (type : GoType) : Build Unit := do
  let mode := ((← typeOf e).map (·.mode)).getD .value
  record e.id ⟨mode, type⟩

/-- Forgets the type of an expression. -/
def forget (e : Expr) : Build Unit :=
  modify fun d => { d with info := { d.info with types := d.info.types.erase e.id } }

def ident (name : String) : Build Ident := return ⟨← next, name⟩

/-! ## Types -/

/-- A new declared type. -/
def named (name : String) (basic : Option BasicKind) : Build GoType := do
  let d ← getThe Draft
  set { d with lastType := d.lastType + 1 }
  return .named ⟨d.lastType + 1, none, name, basic⟩

/-- A name that refers to an object. -/
def objectName (name : String) (kind : ObjectKind) (entry : TypeEntry) : Build Expr := do
  let id ← next
  recordUse id ⟨name, kind, entry.type, false⟩
  record id entry
  return .ident id name

def typeName (name : String) (type : GoType) : Build Expr := objectName name .typeName ⟨.type, type⟩

/-- `[]elem`. -/
def sliceType (elem : Expr) : Build Expr := do
  let id ← next
  let entry ← typeOf elem
  recordSome id ((entry.filter (·.isType)).map fun e => ⟨.type, .slice e.type⟩)
  return .arrayType id none elem

/-- The name of a predeclared type. -/
def basicType (kind : BasicKind) : Build Expr := do
  let id ← next
  recordUse id ⟨kind.spelling, .typeName, .basic kind, true⟩
  record id ⟨.type, .basic kind⟩
  return .ident id kind.spelling

/-! ## Operands -/

def literal (kind : LiteralKind) (text : String) (basic : BasicKind) : Build Expr := do
  let id ← next
  record id ⟨.constant, .basic basic⟩
  return .basicLit id kind text

def intLit (text : String) : Build Expr := literal .int text .untypedInt

def floatLit (text : String) : Build Expr := literal .float text .untypedFloat

def constant (name : String) (kind : BasicKind) : Build Expr :=
  objectName name .const ⟨.constant, .basic kind⟩

def varOf (name : String) (type : GoType) : Build Expr :=
  objectName name .var ⟨.addressable, type⟩

def var (name : String) (kind : BasicKind) : Build Expr := varOf name (.basic kind)

/-- A function without parameters. -/
def func (name : String) (result : GoType) : Build Expr :=
  objectName name .func ⟨.value, .func ⟨[], [result], false⟩⟩

def nil : Build Expr := do
  let id ← next
  recordUse id .nil
  record id ⟨.value, .basic .untypedNil⟩
  return .ident id "nil"

def builtin (name : String) : Build Expr := do
  let id ← next
  recordUse id ⟨name, .builtin (.ofName name), .func ⟨[], [], false⟩, true⟩
  record id ⟨.builtin, .func ⟨[], [], false⟩⟩
  return .ident id name

/-- The name of an imported package; it has no type. -/
def package (name : String) : Build Expr := do
  let id ← next
  recordUse id ⟨name, .pkgName, .interface [], false⟩
  return .ident id name

/-- `x.sel`, a constant. -/
def selector (x : Expr) (sel : String) (kind : BasicKind) : Build Expr := do
  let sel ← ident sel
  recordUse sel.id ⟨sel.name, .const, .basic kind, false⟩
  record sel.id ⟨.constant, .basic kind⟩
  let id ← next
  record id ⟨.constant, .basic kind⟩
  return .selector id x sel

/-! ## Compound expressions -/

/-- `x op y`. A comparison is an untyped boolean; any other operator takes the type of the operand
that has one. -/
def binary (x : Expr) (op : BinaryOp) (y : Expr) : Build Expr := do
  let left ← valueType x
  let right ← valueType y
  let type :=
    if op.isComparison then some (.basic .untypedBool)
    else if op.isShift then left
    else
      match left, right with
      | some l, some r => some (if l.isUntyped then r else l)
      | l, r => l.or r
  let id ← next
  recordSome id (type.map (⟨.value, ·⟩))
  return .binary id x op y

def unary (op : UnaryOp) (x : Expr) : Build Expr := do
  let type := (← valueType x).map fun t => if op = .addr then .pointer t else t
  let id ← next
  recordSome id (type.map (⟨.value, ·⟩))
  return .unary id op x

def paren (x : Expr) : Build Expr := do
  let id ← next
  recordSome id (← typeOf x)
  return .paren id x

/-- `*x`, a pointer type or what a pointer points to. -/
def star (x : Expr) : Build Expr := do
  let id ← next
  recordSome id <|
    match ← typeOf x with
    | some ⟨.type, t⟩ => some ⟨.type, .pointer t⟩
    | some ⟨_, .pointer t⟩ => some ⟨.addressable, t⟩
    | _ => none
  return .star id x

/-- `callee(args)`, of the type of the only result of a function, or else of the first argument. -/
def call (callee : Expr) (args : List Expr) : Build Expr := do
  let type ←
    match ← valueType callee with
    | some (.func ⟨_, [result], _⟩) => pure (some result)
    | _ =>
      match args with
      | a :: _ => valueType a
      | [] => pure none
  let id ← next
  recordSome id (type.map (⟨.value, ·⟩))
  return .call id callee args false

/-- The conversion `callee(arg)`. -/
def conv (callee arg : Expr) : Build Expr := do
  let id ← next
  let entry ← typeOf callee
  recordSome id ((entry.filter (·.isType)).map fun e => ⟨.value, e.type⟩)
  return .call id callee [arg] false

/-- `x[low:]`. -/
def sliceExpr (x low : Expr) : Build Expr := do
  let id ← next
  recordSome id ((← valueType x).map (⟨.value, ·⟩))
  return .slice id x (some low) none none

def composite (type : Expr) (elts : List Expr) : Build Expr := do
  let id ← next
  recordSome id ((← valueType type).map (⟨.value, ·⟩))
  return .composite id (some type) elts

/-! ## Statements and declarations -/

def exprStmt (x : Expr) : Build Stmt := return .exprStmt (← next) x

def assign (lhs rhs : Expr) : Build Stmt := return .assign (← next) [lhs] .assign [rhs]

/-- `_ = x`. -/
def blank (x : Expr) : Build Stmt := do
  let lhs := Node.ident (← next) "_"
  assign lhs x

/-- `name := x`. -/
def define (name : String) (x : Expr) : Build Stmt := do
  let lhs := Node.ident (← next) name
  return .assign (← next) [lhs] .define [x]

def ret (results : List Expr) : Build Stmt := return .returnStmt (← next) results

def block (body : List Stmt) : Build Block := return .block (← next) body

/-- A block as a statement. -/
def blockStmt (body : List Stmt) : Build Stmt := return .blockStmt (← next) body

def ifStmt (cond : Expr) (body : List Stmt) : Build Stmt := do
  let body ← block body
  return .ifStmt (← next) none cond body none

def forStmt (cond : Expr) (body : List Stmt) : Build Stmt := do
  let body ← block body
  return .forStmt (← next) none (some cond) none body

def rangeStmt (x : Expr) (body : List Stmt) : Build Stmt := do
  let body ← block body
  return .rangeStmt (← next) none none false x body

def deferStmt (x : Expr) : Build Stmt := return .deferStmt (← next) x

/-- A switch; a clause with an empty list is the default. -/
def switchStmt (tag : Option Expr) (clauses : List (List Expr × List Stmt)) : Build Stmt := do
  let clauses ← clauses.mapM fun (list, body) => do
    return Node.caseClause (← next) list body
  return .switchStmt (← next) none tag clauses

/-- `func name() { body }`. -/
def funcDecl (name : String) (body : List Stmt) : Build (Node (.decl .top)) := do
  let name ← ident name
  let type := Node.signature (← next) [] []
  let body ← block body
  return .func (← next) none name type (some body)

/-- `var name = value`. -/
def varDecl (name : String) (value : Expr) : Build (Node (.decl .top)) := do
  let name ← ident name
  let spec := Node.valueSpec (← next) [name] none [value]
  return .gen (← next) .var [spec] false

/-- Lays the declarations out as a file of the package `p`. -/
def finish (path : Path) (decls : List (Node (.decl .top))) : Build SourceUnit := do
  let id ← next
  let package ← ident "p"
  return .ofFile path (.file id package decls) (← getThe Draft).info

end Draft

end ConvSweep
