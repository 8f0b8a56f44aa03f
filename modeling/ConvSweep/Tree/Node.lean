import ConvSweep.Token

/-!
# The syntax tree

One family covers every node of a file. The index says where a node may stand, so a statement
where an expression belongs does not typecheck. A node owns its children, and every node carries
the id under which the tables of a file know it.
-/

namespace ConvSweep

/-- The identity of a node within one file. -/
abbrev NodeId := Nat

/-- A name that is not an expression: a declared, selected or labelling name. -/
structure Ident where
  id : NodeId
  name : String
  deriving DecidableEq, Repr

/-- A literal as it is written. -/
structure Literal where
  id : NodeId
  kind : LiteralKind
  text : String
  deriving DecidableEq, Repr

/-- Whether a declaration stands at the top of a file or inside a function. -/
inductive Scope
  | top
  | inner
  deriving DecidableEq, Repr

/-- Where a node may stand. -/
inductive Category
  | file
  | decl (scope : Scope)
  | spec
  | stmt
  | block
  | caseClause
  | commClause
  | expr
  | field
  | signature
  deriving DecidableEq, Repr

/-- A node of a file, with its children inline. -/
inductive Node : Category → Type
  /-- `package p` with its declarations. -/
  | file (id : NodeId) (package : Ident) (decls : List (Node (.decl .top))) : Node .file
  /-- `import`, `const`, `type` or `var` specs, possibly in a `( … )` group. -/
  | gen {scope : Scope} (id : NodeId) (keyword : DeclKeyword) (specs : List (Node .spec))
      (grouped : Bool) : Node (.decl scope)
  /-- A function or, with a receiver, a method. -/
  | func (id : NodeId) (recv : Option (Node .field)) (name : Ident) (type : Node .signature)
      (body : Option (Node .block)) : Node (.decl .top)
  /-- `name "path"`. -/
  | importSpec (id : NodeId) (name : Option Ident) (path : Literal) : Node .spec
  /-- `a, b T = x, y`. -/
  | valueSpec (id : NodeId) (names : List Ident) (type : Option (Node .expr))
      (values : List (Node .expr)) : Node .spec
  /-- `Name T`, or `Name = T` for an alias. -/
  | typeSpec (id : NodeId) (name : Ident) (isAlias : Bool) (type : Node .expr) : Node .spec
  /-- A parameter, a result, a struct field or an interface method. -/
  | field (id : NodeId) (names : List Ident) (type : Node .expr) : Node .field
  /-- The parameters and results of a declared function or a function literal. -/
  | signature (id : NodeId) (params results : List (Node .field)) : Node .signature
  /-- A body in braces. -/
  | block (id : NodeId) (stmts : List (Node .stmt)) : Node .block
  /-- `case list:`, or `default:` for an empty list. -/
  | caseClause (id : NodeId) (list : List (Node .expr)) (body : List (Node .stmt)) :
      Node .caseClause
  /-- `case comm:` of a select, or `default:`. -/
  | commClause (id : NodeId) (comm : Option (Node .stmt)) (body : List (Node .stmt)) :
      Node .commClause
  /-- An expression as a statement. -/
  | exprStmt (id : NodeId) (x : Node .expr) : Node .stmt
  /-- `lhs op rhs`. -/
  | assign (id : NodeId) (lhs : List (Node .expr)) (op : AssignOp) (rhs : List (Node .expr)) :
      Node .stmt
  /-- `x++`, or `x--`. -/
  | incDec (id : NodeId) (x : Node .expr) (inc : Bool) : Node .stmt
  /-- `return results`. -/
  | returnStmt (id : NodeId) (results : List (Node .expr)) : Node .stmt
  /-- A block as a statement. -/
  | blockStmt (id : NodeId) (stmts : List (Node .stmt)) : Node .stmt
  /-- `if init; cond body else els`. -/
  | ifStmt (id : NodeId) (init : Option (Node .stmt)) (cond : Node .expr) (body : Node .block)
      (els : Option (Node .stmt)) : Node .stmt
  /-- `for init; cond; post body`. -/
  | forStmt (id : NodeId) (init : Option (Node .stmt)) (cond : Option (Node .expr))
      (post : Option (Node .stmt)) (body : Node .block) : Node .stmt
  /-- `for key, value := range x body`. -/
  | rangeStmt (id : NodeId) (key value : Option (Node .expr)) (define : Bool) (x : Node .expr)
      (body : Node .block) : Node .stmt
  /-- `switch init; tag { clauses }`. -/
  | switchStmt (id : NodeId) (init : Option (Node .stmt)) (tag : Option (Node .expr))
      (clauses : List (Node .caseClause)) : Node .stmt
  /-- `switch init; guard { clauses }`, where `guard` ends in `.(type)`. -/
  | typeSwitch (id : NodeId) (init : Option (Node .stmt)) (guard : Node .stmt)
      (clauses : List (Node .caseClause)) : Node .stmt
  /-- `select { clauses }`. -/
  | selectStmt (id : NodeId) (clauses : List (Node .commClause)) : Node .stmt
  /-- `go call`. -/
  | goStmt (id : NodeId) (call : Node .expr) : Node .stmt
  /-- `defer call`. -/
  | deferStmt (id : NodeId) (call : Node .expr) : Node .stmt
  /-- `chan <- value`. -/
  | send (id : NodeId) (chan value : Node .expr) : Node .stmt
  /-- `label: stmt`. -/
  | labeled (id : NodeId) (label : Ident) (stmt : Node .stmt) : Node .stmt
  /-- `break`, `continue`, `goto` or `fallthrough`. -/
  | branch (id : NodeId) (kind : BranchKind) (label : Option Ident) : Node .stmt
  /-- A declaration inside a function. -/
  | declStmt (id : NodeId) (decl : Node (.decl .inner)) : Node .stmt
  /-- A name as an expression. -/
  | ident (id : NodeId) (name : String) : Node .expr
  /-- A literal as an expression. -/
  | basicLit (id : NodeId) (kind : LiteralKind) (text : String) : Node .expr
  /-- `T{elts}`; the type may be left out inside another literal. -/
  | composite (id : NodeId) (type : Option (Node .expr)) (elts : List (Node .expr)) : Node .expr
  /-- `func(…) … { … }`. -/
  | funcLit (id : NodeId) (type : Node .signature) (body : Node .block) : Node .expr
  /-- `(x)`. -/
  | paren (id : NodeId) (x : Node .expr) : Node .expr
  /-- `x.sel`. -/
  | selector (id : NodeId) (x : Node .expr) (sel : Ident) : Node .expr
  /-- `x[index]`. -/
  | index (id : NodeId) (x index : Node .expr) : Node .expr
  /-- `x[low:high]`, or `x[low:high:max]`. -/
  | slice (id : NodeId) (x : Node .expr) (low high max : Option (Node .expr)) : Node .expr
  /-- `x.(T)`, or `x.(type)` without a type. -/
  | typeAssert (id : NodeId) (x : Node .expr) (type : Option (Node .expr)) : Node .expr
  /-- A call `f(args)` or a conversion `T(x)`; `ellipsis` spreads the last argument. -/
  | call (id : NodeId) (callee : Node .expr) (args : List (Node .expr)) (ellipsis : Bool) :
      Node .expr
  /-- `*x`, a dereference or a pointer type. -/
  | star (id : NodeId) (x : Node .expr) : Node .expr
  /-- `op x`. -/
  | unary (id : NodeId) (op : UnaryOp) (x : Node .expr) : Node .expr
  /-- `x op y`. -/
  | binary (id : NodeId) (x : Node .expr) (op : BinaryOp) (y : Node .expr) : Node .expr
  /-- `key: value` inside a composite literal. -/
  | keyValue (id : NodeId) (key value : Node .expr) : Node .expr
  /-- `[len]elem`, or `[]elem` without a length. -/
  | arrayType (id : NodeId) (len : Option (Node .expr)) (elem : Node .expr) : Node .expr
  /-- `struct{ fields }`. -/
  | structType (id : NodeId) (fields : List (Node .field)) : Node .expr
  /-- `func(params) results`. -/
  | funcType (id : NodeId) (params results : List (Node .field)) : Node .expr
  /-- `interface{ methods }`. -/
  | interfaceType (id : NodeId) (methods : List (Node .field)) : Node .expr
  /-- `map[key]value`. -/
  | mapType (id : NodeId) (key value : Node .expr) : Node .expr
  /-- `chan value`, `chan<- value` or `<-chan value`. -/
  | chanType (id : NodeId) (dir : ChanDir) (value : Node .expr) : Node .expr
  /-- `...elt`, or `...` alone. -/
  | ellipsis (id : NodeId) (elt : Option (Node .expr)) : Node .expr

abbrev File := Node .file
abbrev Expr := Node .expr
abbrev Stmt := Node .stmt
abbrev Block := Node .block

namespace Node

variable {c : Category}

def id : Node c → NodeId
  | file id .. | gen id .. | func id .. | importSpec id .. | valueSpec id .. | typeSpec id ..
  | field id .. | signature id .. | block id .. | caseClause id .. | commClause id ..
  | exprStmt id .. | assign id .. | incDec id .. | returnStmt id .. | blockStmt id ..
  | ifStmt id .. | forStmt id .. | rangeStmt id .. | switchStmt id .. | typeSwitch id ..
  | selectStmt id .. | goStmt id .. | deferStmt id .. | send id .. | labeled id ..
  | branch id .. | declStmt id .. | ident id .. | basicLit id .. | composite id ..
  | funcLit id .. | paren id .. | selector id .. | index id .. | slice id ..
  | typeAssert id .. | call id .. | star id .. | unary id .. | binary id .. | keyValue id ..
  | arrayType id .. | structType id .. | funcType id .. | interfaceType id .. | mapType id ..
  | chanType id .. | ellipsis id .. => id

/-- The expression inside any number of parentheses. -/
def unparen : {c : Category} → Node c → Node c
  | _, paren _ x => x.unparen
  | _, n => n

end Node

/-- A node of any category. -/
structure AnyNode where
  {category : Category}
  node : Node category

namespace AnyNode

def id (n : AnyNode) : NodeId := n.node.id

def isExpr (n : AnyNode) : Bool := n.category = .expr

end AnyNode

end ConvSweep
