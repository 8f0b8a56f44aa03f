import Mathlib.Data.List.Forall2
import ConvSweep.Print.Printer
import ConvSweep.Proofs.Tree

/-! # The nodes among the pieces

The pieces of a node show nodes below it, each at most once and in the order of the walk. Apart
from written parentheses, which pieces there are does not depend on the context.
-/

namespace ConvSweep

open AnyNode

/-! ## Children as lists -/

namespace Slot

variable {c : Category}

@[simp] theorem map_snd_many (name : String) (ns : List (Node c)) :
    (many name ns).map (·.2) = ns.map fun n => ⟨n⟩ := by
  apply List.ext_getElem
  · simp [many]
  · simp [many]

@[simp] theorem map_snd_one (name : String) (n : Node c) :
    (one name n).map (·.2) = [⟨n⟩] := rfl

@[simp] theorem map_snd_opt (name : String) (n : Option (Node c)) :
    (opt name n).map (·.2) = n.toList.map fun n => ⟨n⟩ := by
  cases n <;> rfl

end Slot

/-! ## What the pieces show -/

namespace Piece

variable {c : Category}

/-- The nodes that a piece shows. -/
def nodes : Piece → List AnyNode
  | .text _ | .line _ => []
  | .sub _ _ m => m.nodes

@[simp] theorem nodes_text (s : String) : nodes (.text s) = [] := rfl
@[simp] theorem nodes_line (k : Nat) : nodes (.line k) = [] := rfl
@[simp] theorem nodes_sub (k : Nat) (ctx : Ctx) (m : AnyNode) : nodes (.sub k ctx m) = m.nodes := rfl
@[simp] theorem nodes_child (ctx : Ctx) (n : Node c) :
    nodes (child ctx n) = AnyNode.nodes ⟨n⟩ := rfl

/-- The nodes of a list and below them. -/
def allNodes (ns : List (Node c)) : List AnyNode := ns.flatMap fun n => AnyNode.nodes ⟨n⟩

theorem flatMap_map_mk (ns : List (Node c)) :
    (ns.map fun n => (⟨n⟩ : AnyNode)).flatMap AnyNode.nodes = allNodes ns := List.flatMap_map _ _ _

theorem flatMap_separated (sep : String) (parts : List (List Piece)) :
    (separated sep parts).flatMap nodes = parts.flatMap fun part => part.flatMap nodes := by
  fun_induction separated sep parts with
  | case1 => rfl
  | case2 part => simp
  | case3 part parts _ ih => simp [ih]

@[simp] theorem flatMap_exprs (ctx : Ctx) (es : List (Node .expr)) :
    (exprs ctx es).flatMap nodes = allNodes es := by
  simp [exprs, flatMap_separated, allNodes, List.flatMap_map]

@[simp] theorem flatMap_fields (sep : String) (fs : List (Node .field)) :
    (fields sep fs).flatMap nodes = allNodes fs := by
  simp [fields, flatMap_separated, allNodes, List.flatMap_map]

@[simp] theorem flatMap_lines (k : Nat) (ns : List (Node c)) :
    (lines k ns).flatMap nodes = allNodes ns := by
  simp [lines, allNodes, List.flatMap_assoc]

@[simp] theorem flatMap_topLevel (ds : List (Node (.decl .top))) :
    (topLevel ds).flatMap nodes = allNodes ds := by
  simp [topLevel, allNodes, List.flatMap_assoc]

@[simp] theorem flatMap_optional (ctx : Ctx) (n : Option (Node c)) :
    (optional ctx n).flatMap nodes = allNodes n.toList := by
  cases n <;> simp [optional, allNodes]

@[simp] theorem flatMap_headerInit (n : Option (Node .stmt)) :
    (headerInit n).flatMap nodes = allNodes n.toList := by
  cases n <;> simp [headerInit, allNodes]

@[simp] theorem flatMap_paramsAndResults (params results : List (Node .field)) :
    (paramsAndResults params results).flatMap nodes = allNodes params ++ allNodes results := by
  unfold paramsAndResults
  split <;> simp [allNodes]

theorem flatMap_method (f : Node .field) :
    ((method f).flatMap nodes).Sublist (AnyNode.nodes ⟨f⟩) := by
  unfold method
  split
  · rw [nodes_eq, List.flatMap_cons, nodes_text, List.nil_append, flatMap_paramsAndResults]
    apply List.Sublist.cons
    simp only [AnyNode.children, Node.children, Slot.map_snd_one, List.flatMap_cons,
      List.flatMap_nil, List.append_nil]
    rw [nodes_eq]
    apply List.Sublist.cons
    simp [AnyNode.children, Node.children, allNodes, List.flatMap_map]
  · simp

theorem flatMap_methods (fs : List (Node .field)) :
    ((methods fs).flatMap nodes).Sublist (allNodes fs) := by
  rw [methods, flatMap_separated, List.flatMap_map, allNodes]
  induction fs with
  | nil => simp
  | cons f fs ih =>
    rw [List.flatMap_cons, List.flatMap_cons]
    exact (flatMap_method f).append ih

end Piece

/-- The pieces of a node as they are written. -/
abbrev Node.written {c : Category} (n : Node c) (ctx : Ctx) : List Piece :=
  n.pieces (fun _ _ => true) ctx

open Piece in
theorem Node.flatMap_pieces {c : Category} (showsParens : Ctx → Node .expr → Bool) (ctx : Ctx)
    (n : Node c) :
    ((n.pieces showsParens ctx).flatMap Piece.nodes).Sublist
      ((⟨n⟩ : AnyNode).children.flatMap AnyNode.nodes) := by
  cases n <;> simp only [AnyNode.children, Node.children, Node.pieces, List.map_append,
    Slot.map_snd_many, Slot.map_snd_one, Slot.map_snd_opt, List.flatMap_append, flatMap_map_mk]
  all_goals repeat' split
  all_goals simp [allNodes]
  exact flatMap_methods _

theorem Node.mem_nodes_of_piece {c : Category} {showsParens : Ctx → Node .expr → Bool} {ctx : Ctx}
    {n : Node c} {k : Nat} {ctx' : Ctx} {m x : AnyNode}
    (hm : .sub k ctx' m ∈ n.pieces showsParens ctx) (hx : x ∈ m.nodes) :
    x ∈ AnyNode.nodes ⟨n⟩ := by
  rw [nodes_eq]
  apply List.mem_cons_of_mem
  exact (n.flatMap_pieces showsParens ctx).subset (List.mem_flatMap.mpr ⟨_, hm, hx⟩)

theorem AnyNode.nodup_pieces {n : AnyNode} (hn : n.DistinctIds)
    {showsParens : Ctx → Node .expr → Bool} (ctx : Ctx) :
    (((n.node.pieces showsParens ctx).flatMap Piece.nodes).map (·.id)).Nodup := by
  have hle := (n.node.flatMap_pieces showsParens ctx).map AnyNode.id
  refine hle.nodup ?_
  rw [List.map_flatMap (l := AnyNode.children _)]
  rw [DistinctIds, ids_eq] at hn
  exact (List.nodup_cons.mp hn).2

theorem Node.ne_of_piece {c : Category} {n : Node c} {ctx ctx' : Ctx} {k : Nat} {m : AnyNode}
    (hm : .sub k ctx' m ∈ n.written ctx) : ⟨n⟩ ∉ m.nodes := by
  intro h
  have hlt := n.smaller_pieces _ ctx _ hm k ctx' m rfl
  rcases sizeOf_le_of_mem_nodes h with rfl | h
  · exact Nat.lt_irrefl _ hlt
  · exact Nat.lt_asymm hlt h

/-! ## Pieces in two contexts -/

/-- The same piece twice, in contexts that are related. -/
inductive Piece.Aligned (R : Ctx → Ctx → Prop) : Piece → Piece → Prop
  | text (s : String) : Aligned R (.text s) (.text s)
  | line (k : Nat) : Aligned R (.line k) (.line k)
  | sub (k : Nat) (m : AnyNode) {ctx ctx' : Ctx} (h : R ctx ctx') :
      Aligned R (.sub k ctx m) (.sub k ctx' m)

/-- A relation of contexts that passes on to the slots of a node. -/
structure Ctx.Inherited (R : Ctx → Ctx → Prop) : Prop where
  refl (ctx : Ctx) : R ctx ctx
  prec {ctx ctx' : Ctx} (h : R ctx ctx') (p : Nat) : R (ctx.prec p) (ctx'.prec p)
  operand {ctx ctx' : Ctx} (h : R ctx ctx') (p : Nat) (s : String) :
    R (ctx.operand p s) (ctx'.operand p s)

def Node.isParen {c : Category} : Node c → Bool
  | .paren .. => true
  | _ => false

namespace Piece

variable {c : Category} {R : Ctx → Ctx → Prop} {ctx ctx' : Ctx}

theorem Aligned.refl (hR : Ctx.Inherited R) (p : Piece) : Aligned R p p := by
  cases p with
  | text s => exact .text s
  | line k => exact .line k
  | sub k ctx m => exact .sub k m (hR.refl ctx)

theorem aligned_self (hR : Ctx.Inherited R) (ps : List Piece) :
    List.Forall₂ (Aligned R) ps ps := by
  induction ps with
  | nil => exact .nil
  | cons p ps ih => exact .cons (.refl hR p) ih

theorem aligned_child (h : R ctx ctx') (n : Node c) : Aligned R (child ctx n) (child ctx' n) :=
  .sub 0 ⟨n⟩ h

theorem aligned_append {ps ps' qs qs' : List Piece} (hp : List.Forall₂ (Aligned R) ps ps')
    (hq : List.Forall₂ (Aligned R) qs qs') : List.Forall₂ (Aligned R) (ps ++ qs) (ps' ++ qs') :=
  List.rel_append hp hq

theorem aligned_exprs (hR : Ctx.Inherited R) (h : R ctx ctx') (es : List (Node .expr)) :
    List.Forall₂ (Aligned R) (exprs ctx es) (exprs ctx' es) := by
  unfold exprs
  induction es with
  | nil => exact .nil
  | cons e es ih =>
    have he := aligned_child (hR.prec h 0) e
    cases es with
    | nil => exact .cons he .nil
    | cons e' es =>
      exact aligned_append (.cons he .nil) (.cons (.text _) ih)

theorem aligned_optional (h : R ctx ctx') (n : Option (Node c)) :
    List.Forall₂ (Aligned R) (optional ctx n) (optional ctx' n) := by
  cases n with
  | none => exact .nil
  | some n => exact .cons (aligned_child h n) .nil

end Piece

open Piece in
theorem Node.pieces_aligned {c : Category} {R : Ctx → Ctx → Prop} (hR : Ctx.Inherited R)
    (shows shows' : Ctx → Node .expr → Bool) {ctx ctx' : Ctx} (h : R ctx ctx') (n : Node c)
    (hn : n.isParen = false) :
    List.Forall₂ (Aligned R) (n.pieces shows ctx) (n.pieces shows' ctx') := by
  cases n <;> simp only [Node.pieces]
  case paren => simp [isParen] at hn
  case exprStmt x => exact .cons (aligned_child h x) .nil
  case assign lhs op rhs =>
    exact aligned_append (aligned_append (aligned_exprs hR h lhs) (aligned_self hR _))
      (aligned_exprs hR h rhs)
  case incDec x inc => exact .cons (aligned_child h x) (aligned_self hR _)
  case returnStmt results =>
    refine .cons (.text _) ?_
    split
    · exact .nil
    · exact .cons (.text _) (aligned_exprs hR h results)
  case goStmt x => exact .cons (.text _) (.cons (aligned_child h x) .nil)
  case deferStmt x => exact .cons (.text _) (.cons (aligned_child h x) .nil)
  case send chan value =>
    exact .cons (aligned_child h chan) (.cons (.text _) (.cons (aligned_child h value) .nil))
  case composite type elts =>
    exact aligned_append (aligned_append (aligned_append (aligned_optional (hR.prec h _) type)
      (aligned_self hR _)) (aligned_self hR _)) (aligned_self hR _)
  case selector x sel => exact .cons (aligned_child (hR.prec h _) x) (aligned_self hR _)
  case index x i => exact .cons (aligned_child (hR.prec h _) x) (aligned_self hR _)
  case slice x low high max => exact .cons (aligned_child (hR.prec h _) x) (aligned_self hR _)
  case typeAssert x type => exact .cons (aligned_child (hR.prec h _) x) (aligned_self hR _)
  case call callee args spread =>
    exact .cons (aligned_child (hR.prec h _) callee) (aligned_self hR _)
  case star x => exact .cons (.text _) (.cons (aligned_child (hR.operand h _ _) x) .nil)
  case unary op x => exact .cons (.text _) (.cons (aligned_child (hR.operand h _ _) x) .nil)
  case binary x op y =>
    exact .cons (aligned_child (hR.prec h _) x)
      (.cons (.text _) (.cons (aligned_child (hR.operand h _ _) y) .nil))
  case keyValue key value =>
    exact .cons (aligned_child (hR.prec h _) key)
      (.cons (.text _) (.cons (aligned_child (hR.prec h _) value) .nil))
  -- Every other node gives its slots a context of its own.
  all_goals exact aligned_self hR _

/-! ## How an expression opens -/

/-- The text of a name or a literal. -/
def Node.word? {c : Category} : Node c → Option String
  | .ident _ name => some name
  | .basicLit _ _ text => some text
  | _ => none

/-- The text begins with a character other than `c`. -/
def StartsOff (c : Char) (s : String) : Prop := ∃ d, s.toList.head? = some d ∧ d ≠ c

instance (c : Char) (s : String) : Decidable (StartsOff c s) :=
  decidable_of_iff (s.toList.head?.any (· ≠ c) = true)
    (by simp [StartsOff, Option.any_eq_true])

theorem StartsOff.ne_empty {c : Char} {s : String} (h : StartsOff c s) : s ≠ "" := by
  rintro rfl
  obtain ⟨d, hd, -⟩ := h
  simp at hd

/-- An expression that is not in parentheses is a word, or opens with a text that is no opening
parenthesis, or with an expression and a text that is no closing one. -/
inductive Node.Opens (n : Node .expr) : List Piece → Prop
  | word (s : String) (h : n.word? = some s) : n.Opens [.text s]
  | text (s : String) (rest : List Piece) (h : StartsOff '(' s) : n.Opens (.text s :: rest)
  | operand (ctx : Ctx) (x : Node .expr) (z : String) (rest : List Piece) (h : StartsOff ')' z) :
      n.Opens (Piece.child ctx x :: .text z :: rest)

theorem Node.opens_pieces (n : Node .expr) (hn : n.isParen = false)
    (shows : Ctx → Node .expr → Bool) (ctx : Ctx) : n.Opens (n.pieces shows ctx) := by
  have hoff : ∀ {c : Char} (d : Char) (s : String), s.toList.head? = some d → d ≠ c → StartsOff c s :=
    fun d s h hne => ⟨d, h, hne⟩
  cases n
  case ident id name => exact .word name rfl
  case basicLit id kind text => exact .word text rfl
  case paren => simp [isParen] at hn
  case composite id type elts =>
    cases type with
    | none => exact .text _ _ (hoff '\x7b' _ rfl (by decide))
    | some t => exact .operand _ t _ _ (hoff '\x7b' _ rfl (by decide))
  case selector id x sel => exact .operand _ x _ _ (hoff '.' _ (by simp) (by decide))
  case index id x i => exact .operand _ x _ _ (hoff '[' _ rfl (by decide))
  case slice id x low high max => exact .operand _ x _ _ (hoff '[' _ rfl (by decide))
  case typeAssert id x type => exact .operand _ x _ _ (hoff '.' _ rfl (by decide))
  case call id callee args spread => exact .operand _ callee _ _ (hoff '(' _ rfl (by decide))
  case binary id x op y => exact .operand _ x _ _ (hoff ' ' _ (by simp [toString]) (by decide))
  case keyValue id key value => exact .operand _ key _ _ (hoff ':' _ rfl (by decide))
  case unary id op x => cases op <;> exact .text _ _ (hoff _ _ rfl (by decide))
  case chanType id dir value => cases dir <;> exact .text _ _ (hoff _ _ rfl (by decide))
  case arrayType id len elem => exact .text _ _ (hoff '[' _ rfl (by decide))
  all_goals exact .text _ _ (hoff _ _ rfl (by decide))

end ConvSweep
