import ConvSweep.Proofs.Leaves

/-! # What cutting conversions out leaves of a text

The text of a node is cut piece by piece: of a conversion that goes, only the argument stays, perhaps
with the parentheses of the call.
-/

namespace ConvSweep

open AnyNode

namespace Node

variable {c : Category}

/-- The pieces of a node that stay when the conversions of `plan` are cut out of its text. -/
def leftPieces (plan : Plan) (n : Node c) : List Piece :=
  match n with
  | .call id callee [arg] spread =>
    match plan id with
    | some .bare => [.child .plain arg]
    | some .wrapped => [.text "(", .child .plain arg, .text ")"]
    | none => (Node.call id callee [arg] spread).written .plain
  | n => n.written .plain

theorem leftPieces_of_remnant?_eq_none {plan : Plan} {n : Node c} (h : n.remnant? plan = none) :
    n.leftPieces plan = n.written .plain := by
  unfold leftPieces
  split
  · rw [remnant?] at h
    simp only [h]
  · rfl

theorem arg_mem_written (id : NodeId) (callee arg : Expr) (spread : Bool) (ctx : Ctx) :
    .sub 0 .plain ⟨arg⟩ ∈ (Node.call id callee [arg] spread).written ctx := by
  simp [Node.pieces, Ctx.prec, Ctx.plain]

theorem sub_mem_written_of_left {plan : Plan} {n : Node c} {k : Nat} {ctx : Ctx} {m : AnyNode}
    (h : .sub k ctx m ∈ n.leftPieces plan) : .sub k ctx m ∈ n.written .plain := by
  unfold leftPieces at h
  split at h
  · split at h
    · obtain ⟨rfl, rfl, rfl⟩ := Piece.sub_eq_child.mp (List.mem_singleton.mp h)
      exact arg_mem_written ..
    · simp only [List.mem_cons, reduceCtorEq, Piece.sub_eq_child, List.not_mem_nil, or_false,
        false_or] at h
      obtain ⟨rfl, rfl, rfl⟩ := h
      exact arg_mem_written ..
    · exact h
  · exact h

/-- The text that stays when the conversions of `plan` are cut out of the text of a node. -/
def leftText {c : Category} (plan : Plan) (depth : Nat) (n : Node c) : String :=
  String.join ((n.leftPieces plan).attach.map fun
    | ⟨.text s, _⟩ => s
    | ⟨.line deeper, _⟩ => lineBreak (depth + deeper)
    | ⟨.sub deeper _ m, _⟩ => m.node.leftText plan (depth + deeper))
termination_by sizeOf n
decreasing_by
  exact n.smaller_pieces _ .plain _ (sub_mem_written_of_left (by assumption)) _ _ _ rfl

end Node

/-- The text that stays of one piece. -/
def Piece.leftText (plan : Plan) (depth : Nat) : Piece → String
  | .text s => s
  | .line deeper => lineBreak (depth + deeper)
  | .sub deeper _ m => m.node.leftText plan (depth + deeper)

theorem Node.leftText_eq {c : Category} (plan : Plan) (depth : Nat) (n : Node c) :
    n.leftText plan depth = String.join ((n.leftPieces plan).map (Piece.leftText plan depth)) := by
  rw [Node.leftText]
  congr 1
  conv => rhs; rw [← List.attach_map_subtype_val (n.leftPieces plan), List.map_map]
  apply List.map_congr_left
  rintro ⟨p, hp⟩ -
  cases p <;> rfl

theorem Doc.toString_join (ds : List Doc) :
    (Doc.join ds).toString = String.join (ds.map Doc.toString) := by
  induction ds with
  | nil => rfl
  | cons d ds ih => rw [join_cons, toString, ih, List.map_cons, String.join_cons]

theorem Node.toString_paren (id : NodeId) (x : Expr) (depth : Nat) (ctx : Ctx) :
    ((Node.paren id x).doc .faithful depth ctx).toString =
      "(" ++ ((x.doc .faithful depth .plain).toString ++ ")") := by
  rw [doc_faithful, toString_mark]
  simp [Node.pieces, Piece.doc, Piece.child, Doc.toString]

theorem Node.leftText_bare {plan : Plan} {id : NodeId} (h : plan id = some .bare)
    (callee arg : Expr) (spread : Bool) (depth : Nat) :
    (Node.call id callee [arg] spread).leftText plan depth = arg.leftText plan depth := by
  simp [leftText_eq, leftPieces, h, Piece.leftText, Piece.child, String.join_cons]

theorem Node.leftText_wrapped {plan : Plan} {id : NodeId} (h : plan id = some .wrapped)
    (callee arg : Expr) (spread : Bool) (depth : Nat) :
    (Node.call id callee [arg] spread).leftText plan depth =
      "(" ++ (arg.leftText plan depth ++ ")") := by
  rw [leftText_eq]
  simp [leftPieces, h, Piece.leftText, Piece.child, String.join_cons]

theorem Node.leftText_of_stays {c : Category} {plan : Plan} {n : Node c}
    (h : n.remnant? plan = none) (depth : Nat) :
    n.leftText plan depth = String.join ((n.written .plain).map (Piece.leftText plan depth)) := by
  rw [leftText_eq, leftPieces_of_remnant?_eq_none h]

theorem AnyNode.toString_prune {plan : Plan} {n : AnyNode}
    (h : ∀ x ∈ n.nodes, x.node.MethodTypesStay plan) (depth : Nat) (ctx : Ctx) :
    ((n.node.prune plan).doc .faithful depth ctx).toString = n.node.leftText plan depth := by
  induction n using AnyNode.print_induct generalizing depth ctx with
  | step n ih =>
    have hsub : ∀ k ctx' m, .sub k ctx' m ∈ n.node.written .plain → ∀ depth ctx,
        ((m.node.prune plan).doc .faithful depth ctx).toString = m.node.leftText plan depth :=
      fun k ctx' m hm depth ctx =>
        ih _ _ k ctx' m hm (fun x hx => h x (Node.mem_nodes_of_piece hm hx)) depth ctx
    cases hr : n.node.remnant? plan with
    | none =>
      rw [Node.doc_faithful_ctx _ depth ctx .plain, Node.doc_faithful, Node.toString_mark,
        Node.written_prune plan .plain n.node hr (h n n.self_mem_nodes), Node.leftText_of_stays hr,
        Doc.toString_join, List.map_map, List.map_map]
      refine congrArg String.join (List.map_congr_left fun p hp => ?_)
      cases p with
      | text s => rfl
      | line k => rfl
      | sub k ctx' m => exact hsub k ctx' m hp _ _
    | some r =>
      obtain ⟨id, callee, arg, spread, heq, hid⟩ := Node.exists_of_remnant? hr
      obtain ⟨n⟩ := n
      cases heq
      have harg := hsub 0 .plain ⟨arg⟩ (Node.arg_mem_written ..) depth
      cases r with
      | bare =>
        rw [Node.leftText_bare hid, ← harg ctx]
        simp only [Node.prune, hid]
      | wrapped =>
        rw [Node.leftText_wrapped hid, ← harg .plain, ← Node.toString_paren id _ depth ctx]
        simp only [Node.prune, hid]

end ConvSweep
