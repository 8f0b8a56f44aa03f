import ConvSweep.Proofs.Positions

/-! # The slots of a printed node

`Shows` says which nodes a node is printed with, and into slots of which context. Most facts about
slots are read off the pieces of a single node.
-/

namespace ConvSweep

open AnyNode

/-- Printing `n` as it is written, into a slot with `ctx`, prints `x` into a slot with `ctx'`. -/
inductive Shows : AnyNode → Ctx → AnyNode → Ctx → Prop
  | self (n : AnyNode) (ctx : Ctx) : Shows n ctx n ctx
  | piece {n m x : AnyNode} {ctx ctx₁ ctx' : Ctx} {k : Nat}
      (hm : .sub k ctx₁ m ∈ n.node.written ctx) (h : Shows m ctx₁ x ctx') : Shows n ctx x ctx'

namespace Shows

variable {n x y : AnyNode} {ctx ctx' ctx'' : Ctx}

theorem trans (h : Shows n ctx x ctx') (h' : Shows x ctx' y ctx'') : Shows n ctx y ctx'' := by
  induction h with
  | self => exact h'
  | piece hm _ ih => exact .piece hm (ih h')

theorem of_piece {k : Nat} (hx : .sub k ctx' x ∈ n.node.written ctx) : Shows n ctx x ctx' :=
  .piece hx (.self x ctx')

theorem mem_nodes (h : Shows n ctx x ctx') : x ∈ n.nodes := by
  induction h with
  | self n => exact n.self_mem_nodes
  | piece hm _ ih => exact Node.mem_nodes_of_piece hm ih

theorem cases_last (h : Shows n ctx x ctx') :
    (x = n ∧ ctx' = ctx) ∨ ∃ p ctxp k, Shows n ctx p ctxp ∧ .sub k ctx' x ∈ p.node.written ctxp := by
  induction h with
  | self => exact Or.inl ⟨rfl, rfl⟩
  | piece hm _ ih =>
    right
    rcases ih with ⟨rfl, rfl⟩ | ⟨p, ctxp, k, hp, hx⟩
    · exact ⟨_, _, _, .self _ _, hm⟩
    · exact ⟨p, ctxp, k, .piece hm hp, hx⟩

theorem self_ctx (h : Shows n ctx n ctx') : ctx' = ctx := by
  cases h with
  | self => rfl
  | piece hm h =>
    have hlt := n.node.smaller_pieces _ ctx _ hm _ _ _ rfl
    rcases sizeOf_le_of_mem_nodes h.mem_nodes with rfl | hlt'
    · exact (Nat.lt_irrefl _ hlt).elim
    · exact (Nat.lt_asymm hlt hlt').elim

end Shows

/-- Every node that is printed with `n`, with the context of its slot. -/
def AnyNode.slots (n : AnyNode) (ctx : Ctx) : List (AnyNode × Ctx) :=
  (n, ctx) :: (n.node.written ctx).attach.flatMap fun
    | ⟨.sub _ ctx' m, _⟩ => m.slots ctx'
    | _ => []
termination_by sizeOf n.node
decreasing_by exact n.node.smaller_pieces _ ctx _ (by assumption) _ _ _ rfl

theorem AnyNode.mem_slots {n x : AnyNode} {ctx ctx' : Ctx} :
    (x, ctx') ∈ n.slots ctx ↔ Shows n ctx x ctx' := by
  constructor
  · intro h
    induction n using AnyNode.print_induct generalizing ctx with
    | step n ih =>
      rw [AnyNode.slots, List.mem_cons, List.mem_flatMap] at h
      rcases h with h | ⟨⟨p, hp⟩, -, h⟩
      · cases h
        exact .self _ _
      · cases p with
        | sub k ctx₁ m => exact .piece hp (ih _ _ k ctx₁ m hp h)
        | text s => cases h
        | line k => cases h
  · intro h
    induction h with
    | self n ctx =>
      rw [AnyNode.slots]
      exact List.mem_cons_self
    | piece hm _ ih =>
      rw [AnyNode.slots]
      exact List.mem_cons_of_mem _ (List.mem_flatMap.mpr ⟨⟨_, hm⟩, List.mem_attach _ _, ih⟩)

/-! ## The nodes among lists of pieces -/

namespace Piece

variable {c : Category} {k : Nat} {ctx ctx' : Ctx} {m : AnyNode}

@[simp] theorem sub_eq_child {n : Node c} :
    Piece.sub k ctx' m = child ctx n ↔ k = 0 ∧ ctx' = ctx ∧ m = ⟨n⟩ := by
  rw [child, Piece.sub.injEq]

theorem sub_mem_separated {sep : String} {parts : List (List Piece)} :
    .sub k ctx' m ∈ separated sep parts ↔ ∃ part ∈ parts, .sub k ctx' m ∈ part := by
  fun_induction separated sep parts with
  | case1 => simp
  | case2 part => simp
  | case3 part parts _ ih => simp [ih]

@[simp] theorem sub_mem_exprs {es : List (Node .expr)} :
    .sub k ctx' m ∈ exprs ctx es ↔ k = 0 ∧ ctx' = ctx.prec 0 ∧ ∃ e ∈ es, m = ⟨e⟩ := by
  simp only [exprs, sub_mem_separated, List.mem_map, exists_exists_and_eq_and, List.mem_singleton,
    sub_eq_child]
  tauto

@[simp] theorem sub_mem_fields {sep : String} {fs : List (Node .field)} :
    .sub k ctx' m ∈ fields sep fs ↔ k = 0 ∧ ctx' = .plain ∧ ∃ f ∈ fs, m = ⟨f⟩ := by
  simp only [fields, sub_mem_separated, List.mem_map, exists_exists_and_eq_and, List.mem_singleton,
    sub_eq_child]
  tauto

@[simp] theorem sub_mem_lines {deeper : Nat} {ns : List (Node c)} :
    .sub k ctx' m ∈ lines deeper ns ↔ k = deeper ∧ ctx' = .plain ∧ ∃ n ∈ ns, m = ⟨n⟩ := by
  simp only [lines, List.mem_flatMap, List.mem_cons, reduceCtorEq, Piece.sub.injEq,
    List.not_mem_nil, or_false, false_or]
  tauto

@[simp] theorem sub_mem_topLevel {ds : List (Node (.decl .top))} :
    .sub k ctx' m ∈ topLevel ds ↔ k = 0 ∧ ctx' = .plain ∧ ∃ d ∈ ds, m = ⟨d⟩ := by
  simp only [topLevel, List.mem_flatMap, List.mem_cons, reduceCtorEq, sub_eq_child,
    List.not_mem_nil, or_false, false_or]
  tauto

@[simp] theorem sub_mem_optional {n : Option (Node c)} :
    .sub k ctx' m ∈ optional ctx n ↔ k = 0 ∧ ctx' = ctx ∧ ∃ n' ∈ n, m = ⟨n'⟩ := by
  cases n <;> simp [optional]

@[simp] theorem sub_mem_headerInit {n : Option (Node .stmt)} :
    .sub k ctx' m ∈ headerInit n ↔ k = 0 ∧ ctx' = .header ∧ ∃ n' ∈ n, m = ⟨n'⟩ := by
  cases n <;> simp [headerInit]

@[simp] theorem sub_mem_paramsAndResults {params results : List (Node .field)} :
    .sub k ctx' m ∈ paramsAndResults params results ↔
      k = 0 ∧ ctx' = .plain ∧ ∃ f ∈ params ++ results, m = ⟨f⟩ := by
  unfold paramsAndResults
  split <;> simp [or_and_right, exists_or, and_or_left]

theorem cases_of_sub_mem_method {f : Node .field} (h : .sub k ctx' m ∈ method f) :
    k = 0 ∧ ctx' = .plain ∧ (m = ⟨f⟩ ∨
      ∃ id name names ft params results, f = .field id (name :: names) (.funcType ft params results) ∧
        ∃ g ∈ params ++ results, m = ⟨g⟩) := by
  unfold method at h
  split at h
  · simp only [List.mem_cons, reduceCtorEq, sub_mem_paramsAndResults, false_or] at h
    obtain ⟨rfl, rfl, hg⟩ := h
    exact ⟨rfl, rfl, Or.inr ⟨_, _, _, _, _, _, rfl, hg⟩⟩
  · simp only [List.mem_singleton, sub_eq_child] at h
    obtain ⟨rfl, rfl, rfl⟩ := h
    exact ⟨rfl, rfl, Or.inl rfl⟩

theorem sub_mem_methods {fs : List (Node .field)} :
    .sub k ctx' m ∈ methods fs ↔ ∃ f ∈ fs, .sub k ctx' m ∈ method f := by
  simp only [methods, sub_mem_separated, List.mem_map, exists_exists_and_eq_and]

end Piece

/-! ## The slots of one node -/

/-- The statements that have a header. -/
def AnyNode.hasHeader : AnyNode → Bool
  | ⟨.ifStmt ..⟩ | ⟨.forStmt ..⟩ | ⟨.rangeStmt ..⟩ | ⟨.switchStmt ..⟩ | ⟨.typeSwitch ..⟩ => true
  | _ => false

/-- The nodes that no header reaches into. -/
def AnyNode.endsHeader : AnyNode → Bool
  | ⟨.block ..⟩ | ⟨.blockStmt ..⟩ | ⟨.caseClause ..⟩ | ⟨.commClause ..⟩ | ⟨.funcLit ..⟩
  | ⟨.gen ..⟩ | ⟨.func ..⟩ | ⟨.file ..⟩ => true
  | _ => false

/-- An interface, and a parameter or result in the signature of one of its methods. -/
inductive InMethod : AnyNode → AnyNode → Prop
  | mk {id fid ft : NodeId} {name : Ident} {names : List Ident} {params results : List (Node .field)}
      {methods : List (Node .field)} {g : Node .field}
      (hf : .field fid (name :: names) (.funcType ft params results) ∈ methods)
      (hg : g ∈ params ++ results) : InMethod ⟨.interfaceType id methods⟩ ⟨g⟩

theorem InMethod.exists_children {n m : AnyNode} (h : InMethod n m) :
    ∃ fid names ft params results,
      ⟨.field fid names (.funcType ft params results)⟩ ∈ n.children ∧
      ⟨.funcType ft params results⟩ ∈
        AnyNode.children ⟨.field fid names (.funcType ft params results)⟩ ∧
      m ∈ AnyNode.children ⟨.funcType ft params results⟩ := by
  obtain @⟨id, fid, ft, name, names, params, results, methods, g, hf, hg⟩ := h
  refine ⟨fid, name :: names, ft, params, results, ?_, ?_, ?_⟩
  · simpa [AnyNode.children, Node.children] using hf
  · simp [AnyNode.children, Node.children]
  · simpa [AnyNode.children, Node.children] using hg

namespace Node

variable {c : Category} {n : Node c} {k : Nat} {ctx ctx' : Ctx} {m : AnyNode}

theorem sub_mem_interfaceType {id : NodeId} {methods : List (Node .field)} :
    .sub k ctx' m ∈ (Node.interfaceType id methods).written ctx ↔
      ∃ f ∈ methods, .sub k ctx' m ∈ Piece.method f := by
  rw [← Piece.sub_mem_methods]
  cases methods <;> simp [written, Node.pieces, Piece.methods, Piece.separated]

theorem cases_of_piece (h : .sub k ctx' m ∈ n.written ctx) :
    m ∈ (⟨n⟩ : AnyNode).children ∨ (ctx' = .plain ∧ InMethod ⟨n⟩ m) := by
  unfold written at h
  cases n
  case interfaceType id methods =>
    obtain ⟨f, hf, hm⟩ := sub_mem_interfaceType.mp h
    obtain ⟨-, rfl, rfl | ⟨fid, name, names, ft, params, results, rfl, g, hg, rfl⟩⟩ :=
      Piece.cases_of_sub_mem_method hm
    · left
      simpa [AnyNode.children, Node.children] using hf
    · exact Or.inr ⟨rfl, .mk hf hg⟩
  all_goals left
  all_goals simp only [Node.pieces] at h
  all_goals repeat' split at h
  all_goals simp [AnyNode.children, Node.children] at h ⊢
  all_goals grind -ring -linarith

theorem inHeader_of_piece (h : .sub k ctx' m ∈ n.written ctx) (hctx : ctx'.inHeader = true) :
    (⟨n⟩ : AnyNode).hasHeader = true ∨
      (ctx.inHeader = true ∧ (⟨n⟩ : AnyNode).endsHeader = false) := by
  unfold written at h
  cases n
  case interfaceType id methods =>
    obtain ⟨f, hf, hm⟩ := sub_mem_interfaceType.mp h
    obtain ⟨-, rfl, -⟩ := Piece.cases_of_sub_mem_method hm
    simp [Ctx.plain] at hctx
  all_goals simp only [Node.pieces] at h
  all_goals repeat' split at h
  all_goals simp [AnyNode.hasHeader, AnyNode.endsHeader] at h ⊢
  all_goals grind -ring -linarith [Ctx.plain, Ctx.header, Ctx.prec, Ctx.operand]

theorem minPrec_of_piece (h : .sub k ctx' m ∈ n.written ctx) (hctx : ctx.minPrec ≤ primaryPrec) :
    ctx'.minPrec ≤ primaryPrec := by
  have hop : ∀ op : BinaryOp, op.precedence < primaryPrec := by
    intro op
    cases op <;> decide
  unfold written at h
  cases n
  case interfaceType id methods =>
    obtain ⟨f, hf, hm⟩ := sub_mem_interfaceType.mp h
    obtain ⟨-, rfl, -⟩ := Piece.cases_of_sub_mem_method hm
    exact Nat.zero_le _
  all_goals simp only [Node.pieces] at h
  all_goals repeat' split at h
  all_goals simp at h
  all_goals grind -ring -linarith [Ctx.plain, Ctx.header, Ctx.prec, Ctx.operand, primaryPrec,
    unaryPrec]

theorem ctx_of_stmt_piece {s : Stmt} (h : .sub k ctx' ⟨s⟩ ∈ n.written ctx) :
    ctx' = .plain ∨ ctx' = .header := by
  unfold written at h
  cases n
  case interfaceType id methods =>
    obtain ⟨f, hf, hm⟩ := sub_mem_interfaceType.mp h
    exact Or.inl (Piece.cases_of_sub_mem_method hm).2.1
  all_goals simp only [Node.pieces] at h
  all_goals repeat' split at h
  all_goals simp at h
  all_goals grind -ring -linarith

theorem written_prec (hc : c ≠ .stmt) (ctx : Ctx) : n.written ctx = n.written (ctx.prec 0) := by
  cases n <;> first | rfl | exact (hc rfl).elim

theorem exists_slot {R : Ctx → Ctx → Prop} (hR : Ctx.Inherited R) {ctx₁ : Ctx} (h : R ctx ctx₁)
    (hm : .sub k ctx' m ∈ n.written ctx) : ∃ ctx₁', .sub k ctx₁' m ∈ n.written ctx₁ ∧ R ctx' ctx₁' := by
  cases hparen : n.isParen with
  | true =>
    cases n <;> simp [isParen] at hparen
    exact ⟨ctx', hm, hR.refl ctx'⟩
  | false =>
    have hal := n.pieces_aligned hR (fun _ _ => true) (fun _ _ => true) h hparen
    rw [← written, ← written] at hal
    generalize n.written ctx = ps, n.written ctx₁ = qs at hal hm
    induction hal with
    | nil => cases hm
    | cons hpq _ ih =>
      rcases List.mem_cons.mp hm with rfl | hm
      · cases hpq with
        | sub _ _ hR' => exact ⟨_, List.mem_cons_self, hR'⟩
      · obtain ⟨ctx₁', hm₁, hR'⟩ := ih hm
        exact ⟨ctx₁', List.mem_cons_of_mem _ hm₁, hR'⟩

theorem written_of_hasHeader (h : (⟨n⟩ : AnyNode).hasHeader = true) (ctx ctx' : Ctx) :
    n.written ctx = n.written ctx' := by
  cases n <;> first | rfl | simp [AnyNode.hasHeader] at h

end Node

theorem Shows.arg (id : NodeId) (callee arg : Expr) (spread : Bool) (ctx : Ctx) :
    Shows ⟨.call id callee [arg] spread⟩ ctx ⟨arg⟩ .plain := by
  refine .of_piece (k := 0) ?_
  simp only [Node.written, Node.pieces, List.mem_append, Piece.sub_mem_exprs]
  exact Or.inl (Or.inr ⟨trivial, rfl, arg, List.mem_singleton_self arg, rfl⟩)

theorem Shows.minPrec_le {n x : AnyNode} {ctx ctx' : Ctx} (h : Shows n ctx x ctx')
    (hctx : ctx.minPrec ≤ primaryPrec) : ctx'.minPrec ≤ primaryPrec := by
  induction h with
  | self => exact hctx
  | piece hm _ ih => exact ih (Node.minPrec_of_piece hm hctx)

end ConvSweep
