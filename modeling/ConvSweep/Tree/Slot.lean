import ConvSweep.Tree.Node

/-!
# Slots and children

`Node.children` is the one table of what a node holds and where. Names that are not expressions
hold no node, so they are no children.
-/

namespace ConvSweep

/-- The part of a node that holds a child: a field, or a place in a list of that name. -/
structure Slot where
  name : String
  index : Option Nat
  deriving DecidableEq, Repr

namespace Slot

def toString (s : Slot) : String :=
  match s.index with
  | some i => s!"{s.name}[{i}]"
  | none => s.name

/-- The nodes of a list, each in its place. -/
def many {c : Category} (name : String) (nodes : List (Node c)) : List (Slot × AnyNode) :=
  nodes.mapIdx fun i n => (⟨name, some i⟩, ⟨n⟩)

/-- A node that is always there. -/
def one {c : Category} (name : String) (node : Node c) : List (Slot × AnyNode) :=
  [(⟨name, none⟩, ⟨node⟩)]

/-- A node that may be left out. -/
def opt {c : Category} (name : String) (node : Option (Node c)) : List (Slot × AnyNode) :=
  (node.map fun n => (⟨name, none⟩, ⟨n⟩)).toList

end Slot

namespace Node

open Slot

variable {c : Category}

/-- The children of a node, each with the slot that holds it, in the order of the source. -/
def children : Node c → List (Slot × AnyNode)
  | file _ _ decls => many "Decls" decls
  | gen _ _ specs _ => many "Specs" specs
  | func _ recv _ type body => opt "Recv" recv ++ one "Type" type ++ opt "Body" body
  | importSpec .. => []
  | valueSpec _ _ type values => opt "Type" type ++ many "Values" values
  | typeSpec _ _ _ type => one "Type" type
  | field _ _ type => one "Type" type
  | signature _ params results => many "Params" params ++ many "Results" results
  | block _ stmts => many "List" stmts
  | caseClause _ list body => many "List" list ++ many "Body" body
  | commClause _ comm body => opt "Comm" comm ++ many "Body" body
  | exprStmt _ x => one "X" x
  | assign _ lhs _ rhs => many "Lhs" lhs ++ many "Rhs" rhs
  | incDec _ x _ => one "X" x
  | returnStmt _ results => many "Results" results
  | blockStmt _ stmts => many "List" stmts
  | ifStmt _ init cond body els =>
    opt "Init" init ++ one "Cond" cond ++ one "Body" body ++ opt "Else" els
  | forStmt _ init cond post body =>
    opt "Init" init ++ opt "Cond" cond ++ opt "Post" post ++ one "Body" body
  | rangeStmt _ key value _ x body =>
    opt "Key" key ++ opt "Value" value ++ one "X" x ++ one "Body" body
  | switchStmt _ init tag clauses => opt "Init" init ++ opt "Tag" tag ++ many "Body" clauses
  | typeSwitch _ init guard clauses =>
    opt "Init" init ++ one "Assign" guard ++ many "Body" clauses
  | selectStmt _ clauses => many "Body" clauses
  | goStmt _ x => one "Call" x
  | deferStmt _ x => one "Call" x
  | send _ chan value => one "Chan" chan ++ one "Value" value
  | labeled _ _ stmt => one "Stmt" stmt
  | branch .. => []
  | declStmt _ decl => one "Decl" decl
  | ident .. => []
  | basicLit .. => []
  | composite _ type elts => opt "Type" type ++ many "Elts" elts
  | funcLit _ type body => one "Type" type ++ one "Body" body
  | paren _ x => one "X" x
  | selector _ x _ => one "X" x
  | index _ x i => one "X" x ++ one "Index" i
  | slice _ x low high max => one "X" x ++ opt "Low" low ++ opt "High" high ++ opt "Max" max
  | typeAssert _ x type => one "X" x ++ opt "Type" type
  | call _ callee args _ => one "Fun" callee ++ many "Args" args
  | star _ x => one "X" x
  | unary _ _ x => one "X" x
  | binary _ x _ y => one "X" x ++ one "Y" y
  | keyValue _ key value => one "Key" key ++ one "Value" value
  | arrayType _ len elem => opt "Len" len ++ one "Elt" elem
  | structType _ fields => many "Fields" fields
  | funcType _ params results => many "Params" params ++ many "Results" results
  | interfaceType _ methods => many "Methods" methods
  | mapType _ key value => one "Key" key ++ one "Value" value
  | chanType _ _ value => one "Value" value
  | ellipsis _ elt => opt "Elt" elt

end Node

namespace AnyNode

/-- The children without their slots. -/
def children (n : AnyNode) : List AnyNode := n.node.children.map (·.2)

/-- The first slot that holds an expression with this id. -/
def slotOf (n : AnyNode) (child : NodeId) : Option Slot :=
  (n.node.children.find? fun (_, m) => m.isExpr && m.id == child).map (·.1)

end AnyNode

/-! ## A child is smaller than its parent -/

namespace Slot

variable {c : Category}

theorem sizeOf_lt_of_mem_many {name : String} {nodes : List (Node c)} {s : Slot} {m : AnyNode}
    (h : (s, m) ∈ many name nodes) : sizeOf m.node < sizeOf nodes := by
  simp only [many, List.mem_mapIdx, Prod.mk.injEq] at h
  obtain ⟨i, hi, -, rfl⟩ := h
  exact List.sizeOf_lt_of_mem (List.getElem_mem hi)

theorem sizeOf_lt_of_mem_opt {name : String} {node : Option (Node c)} {s : Slot} {m : AnyNode}
    (h : (s, m) ∈ opt name node) : sizeOf m.node < sizeOf node := by
  cases node with
  | none => simp [opt] at h
  | some n =>
    simp only [opt, Option.map_some, Option.toList_some, List.mem_singleton, Prod.mk.injEq] at h
    obtain ⟨-, rfl⟩ := h
    simp

theorem sizeOf_le_of_mem_one {name : String} {node : Node c} {s : Slot} {m : AnyNode}
    (h : (s, m) ∈ one name node) : sizeOf m.node ≤ sizeOf node := by
  simp only [one, List.mem_singleton, Prod.mk.injEq] at h
  obtain ⟨-, rfl⟩ := h
  simp

end Slot

theorem Node.sizeOf_lt_of_mem_children {c : Category} {n : Node c} {s : Slot} {m : AnyNode}
    (h : (s, m) ∈ n.children) : sizeOf m.node < sizeOf n := by
  cases n <;> simp only [Node.children, List.mem_append, List.not_mem_nil] at h <;> simp <;>
    grind [→ Slot.sizeOf_lt_of_mem_many, → Slot.sizeOf_lt_of_mem_opt, → Slot.sizeOf_le_of_mem_one]

theorem AnyNode.sizeOf_lt_of_mem_children {n m : AnyNode} (h : m ∈ n.children) :
    sizeOf m.node < sizeOf n.node := by
  obtain ⟨⟨s, m'⟩, hm, rfl⟩ := List.mem_map.1 h
  exact Node.sizeOf_lt_of_mem_children hm

/-- What holds of a node whenever it holds of the node's children holds of every node. -/
theorem AnyNode.induct {motive : AnyNode → Prop}
    (step : ∀ n : AnyNode, (∀ m ∈ n.children, motive m) → motive n) (n : AnyNode) : motive n :=
  step n fun m _ => AnyNode.induct step m
termination_by sizeOf n.node
decreasing_by exact AnyNode.sizeOf_lt_of_mem_children (by assumption)

end ConvSweep
