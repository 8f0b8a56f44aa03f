import ConvSweep.Print.Doc
import ConvSweep.Print.Piece

/-!
# Printing a node

`Node.doc` prints a node in a given style by printing its pieces. It ends because the nodes among
the pieces of a node are smaller than the node.
-/

namespace ConvSweep

/-! ## The nodes among the pieces are smaller -/

namespace Piece

variable {c : Category} {b : Nat}

/-- Every node among the pieces has a size below `b`. -/
def Smaller (b : Nat) (ps : List Piece) : Prop :=
  ∀ p ∈ ps, ∀ k ctx m, p = Piece.sub k ctx m → sizeOf m.node < b

@[simp] theorem smaller_nil : Smaller b [] := by simp [Smaller]

@[simp] theorem smaller_append {ps qs : List Piece} :
    Smaller b (ps ++ qs) ↔ Smaller b ps ∧ Smaller b qs := List.forall_mem_append

@[simp] theorem smaller_cons_text {s : String} {ps : List Piece} :
    Smaller b (.text s :: ps) ↔ Smaller b ps := by simp [Smaller]

@[simp] theorem smaller_cons_line {k : Nat} {ps : List Piece} :
    Smaller b (.line k :: ps) ↔ Smaller b ps := by simp [Smaller]

@[simp] theorem smaller_cons_sub {k : Nat} {ctx : Ctx} {m : AnyNode} {ps : List Piece} :
    Smaller b (.sub k ctx m :: ps) ↔ sizeOf m.node < b ∧ Smaller b ps := by
  simp only [Smaller, List.forall_mem_cons, Piece.sub.injEq]
  constructor
  · rintro ⟨h, hs⟩
    exact ⟨h k ctx m ⟨rfl, rfl, rfl⟩, hs⟩
  · rintro ⟨h, hs⟩
    exact ⟨fun _ _ _ e => e.2.2 ▸ h, hs⟩

@[simp] theorem smaller_cons_child {ctx : Ctx} {n : Node c} {ps : List Piece} :
    Smaller b (child ctx n :: ps) ↔ sizeOf n < b ∧ Smaller b ps := smaller_cons_sub

theorem smaller_separated {sep : String} {parts : List (List Piece)}
    (h : ∀ part ∈ parts, Smaller b part) : Smaller b (separated sep parts) := by
  fun_induction separated sep parts with
  | case1 => simp
  | case2 part => exact h part (by simp)
  | case3 part parts _ ih => simp_all

theorem smaller_exprs {ctx : Ctx} {es : List (Node .expr)} (h : sizeOf es < b) :
    Smaller b (exprs ctx es) := by
  refine smaller_separated fun part hpart => ?_
  obtain ⟨e, he, rfl⟩ := List.mem_map.1 hpart
  have := List.sizeOf_lt_of_mem he
  simp only [smaller_cons_child, smaller_nil, and_true]
  omega

theorem smaller_fields {sep : String} {fs : List (Node .field)} (h : sizeOf fs < b) :
    Smaller b (fields sep fs) := by
  refine smaller_separated fun part hpart => ?_
  obtain ⟨f, hf, rfl⟩ := List.mem_map.1 hpart
  have := List.sizeOf_lt_of_mem hf
  simp only [smaller_cons_child, smaller_nil, and_true]
  omega

theorem smaller_flatMap {α : Type} {as : List α} {f : α → List Piece}
    (h : ∀ a ∈ as, Smaller b (f a)) : Smaller b (as.flatMap f) := by
  induction as with
  | nil => simp
  | cons a as ih => simp_all

theorem smaller_lines {k : Nat} {ns : List (Node c)} (h : sizeOf ns < b) :
    Smaller b (lines k ns) := by
  refine smaller_flatMap fun n hn => ?_
  have := List.sizeOf_lt_of_mem hn
  simp only [smaller_cons_line, smaller_cons_sub, smaller_nil, and_true]
  omega

theorem smaller_optional {ctx : Ctx} {n : Option (Node c)} (h : sizeOf n < b) :
    Smaller b (optional ctx n) := by
  cases n with
  | none => simp [optional]
  | some n =>
    simp only [Option.some.sizeOf_spec] at h
    simp only [optional, smaller_cons_child, smaller_nil, and_true]
    omega

theorem smaller_headerInit {n : Option (Node .stmt)} (h : sizeOf n < b) :
    Smaller b (headerInit n) := by
  cases n with
  | none => simp [headerInit]
  | some n =>
    simp only [Option.some.sizeOf_spec] at h
    simp only [headerInit, smaller_cons_child, smaller_cons_text, smaller_nil, and_true]
    omega

theorem smaller_paramsAndResults {params results : List (Node .field)}
    (h : sizeOf params < b) (h' : sizeOf results < b) :
    Smaller b (paramsAndResults params results) := by
  unfold paramsAndResults
  split
  · simp [smaller_fields h]
  · simp [smaller_fields h]
    simp at h'
    omega
  · simp [smaller_fields h, smaller_fields h']

theorem smaller_method {f : Node .field} (h : sizeOf f < b) : Smaller b (method f) := by
  unfold method
  split
  · simp at h
    simp only [smaller_cons_text]
    apply smaller_paramsAndResults <;> omega
  · simpa using h

theorem smaller_methods {fs : List (Node .field)} (h : sizeOf fs < b) :
    Smaller b (methods fs) := by
  refine smaller_separated fun part hpart => ?_
  obtain ⟨f, hf, rfl⟩ := List.mem_map.1 hpart
  have := List.sizeOf_lt_of_mem hf
  exact smaller_method (by omega)

theorem smaller_topLevel {decls : List (Node (.decl .top))} (h : sizeOf decls < b) :
    Smaller b (topLevel decls) := by
  refine smaller_flatMap fun d hd => ?_
  have := List.sizeOf_lt_of_mem hd
  simp only [smaller_cons_text, smaller_cons_child, smaller_nil, and_true]
  omega

end Piece

open Piece in
/-- The nodes among the pieces of a node are smaller than the node. -/
theorem Node.smaller_pieces {c : Category} (showsParens : Ctx → Node .expr → Bool) (ctx : Ctx)
    (n : Node c) : Smaller (sizeOf n) (n.pieces showsParens ctx) := by
  cases n <;> simp only [Node.pieces] <;> repeat' split
  all_goals simp
  all_goals simp +arith (disch := omega) only [smaller_exprs, smaller_fields, smaller_lines,
    smaller_optional, smaller_headerInit, smaller_paramsAndResults, smaller_methods,
    smaller_topLevel, and_self]

/-! ## Styles and printing -/

/-- A way to print: which written parentheses are shown, and what is printed in place of which
expressions. -/
structure Style where
  showsParens : Ctx → Node .expr → Bool
  /-- What stands in for the expressions with this id, by the depth and the context. -/
  standIn : NodeId → Option (Nat → Ctx → Doc)

/-- What stands in for a node; only expressions are ever replaced. -/
def Style.standInFor {c : Category} (style : Style) (n : Node c) : Option (Nat → Ctx → Doc) :=
  if c = .expr then style.standIn n.id else none

/-- The extents that are marked: those of expressions, statements, blocks and clauses. -/
def Category.hasSpan : Category → Bool
  | .expr | .stmt | .block | .caseClause | .commClause => true
  | .file | .decl _ | .spec | .field | .signature => false

/-- A line break followed by the indentation. -/
def lineBreak (depth : Nat) : String := "\n" ++ String.ofList (List.replicate depth '\t')

namespace Node

variable {c : Category}

/-- Marks the printed pieces: the extent of the node and, for a call, what follows the callee. -/
def mark (n : Node c) (parts : List Doc) : Doc :=
  match n, parts with
  | .call id .., callee :: rest => .span id (callee ++ .parens id (.join rest))
  | n, parts => if c.hasSpan then .span n.id (.join parts) else .join parts

/-- Prints a node at an indentation depth, into a slot with the given context. -/
def doc {c : Category} (style : Style) (depth : Nat) (ctx : Ctx) (n : Node c) : Doc :=
  match style.standInFor n with
  | some stand => stand depth ctx
  | none =>
    n.mark <| (n.pieces style.showsParens ctx).attach.map fun
      | ⟨.text s, _⟩ => .text s
      | ⟨.line deeper, _⟩ => .text (lineBreak (depth + deeper))
      | ⟨.sub deeper ctx' m, _⟩ => m.node.doc style (depth + deeper) ctx'
termination_by sizeOf n
decreasing_by exact n.smaller_pieces style.showsParens ctx _ (by assumption) deeper ctx' m rfl

end Node

/-- Prints one piece of a node at the given depth. -/
def Piece.doc (style : Style) (depth : Nat) : Piece → Doc
  | .text s => .text s
  | .line deeper => .text (lineBreak (depth + deeper))
  | .sub deeper ctx m => m.node.doc style (depth + deeper) ctx

/-- Printing a node is printing its pieces, unless something stands in for it. -/
theorem Node.doc_eq {c : Category} (style : Style) (depth : Nat) (ctx : Ctx) (n : Node c) :
    n.doc style depth ctx =
      match style.standInFor n with
      | some stand => stand depth ctx
      | none => n.mark ((n.pieces style.showsParens ctx).map (Piece.doc style depth)) := by
  rw [Node.doc]
  split
  · rfl
  · congr 1
    conv => rhs; rw [← List.attach_map_subtype_val (n.pieces style.showsParens ctx), List.map_map]
    apply List.map_congr_left
    rintro ⟨p, hp⟩ -
    cases p <;> rfl

end ConvSweep
