import ConvSweep.ParensTrial
import ConvSweep.Proofs.Reading
import ConvSweep.Proofs.Slots

/-! # What a trial tells

A trial renders the surroundings of a conversion with its argument, bare and in parentheses. The two
texts differ wherever the argument needs the parentheses, so a bare argument that a trial lets pass
does not need them.
-/

namespace ConvSweep

open AnyNode

/-! ## Slots that ask for less -/

/-- Whatever stands bare in a slot with `ctx'` stands bare in one with `ctx`. -/
structure Ctx.AsksLess (ctx ctx' : Ctx) : Prop where
  minPrec : ctx.minPrec ≤ ctx'.minPrec
  after : ctx.after = none ∨ ctx.after = ctx'.after
  inHeader : ctx.inHeader = true → ctx'.inHeader = true

namespace Ctx

theorem inherited_asksLess : Inherited AsksLess where
  refl _ := ⟨Nat.le_refl _, Or.inr rfl, id⟩
  prec h p := ⟨Nat.le_refl p, Or.inl rfl, h.inHeader⟩
  operand h p _ := ⟨Nat.le_refl p, Or.inr rfl, h.inHeader⟩

theorem plain_asksLess (ctx : Ctx) : plain.AsksLess ctx :=
  ⟨Nat.zero_le _, Or.inl rfl, fun h => by cases h⟩

end Ctx

namespace Face

theorem needsParens_mono (f : Face) {ctx ctx' : Ctx} (h : ctx.AsksLess ctx')
    (hneeds : f.needsParens ctx = true) : f.needsParens ctx' = true := by
  simp only [needsParens, Bool.or_eq_true, decide_eq_true_eq, Bool.and_eq_true] at hneeds ⊢
  rcases hneeds with (hprec | hfuse) | ⟨hheader, hexp⟩
  · exact Or.inl (Or.inl (Nat.lt_of_lt_of_le hprec h.minPrec))
  · rcases h.after with hnone | hafter
    · simp [hnone] at hfuse
    · exact Or.inl (Or.inr (hafter ▸ hfuse))
  · exact Or.inr ⟨h.inHeader hheader, hexp⟩

@[simp] theorem needsParens_plain (f : Face) : f.needsParens .plain = false := by
  simp [needsParens, Ctx.plain]

end Face

theorem Node.isParen_of_needsParens {e : Expr} {ctx : Ctx} (hctx : ctx.minPrec ≤ primaryPrec)
    (h : (e.face fun _ => none).needsParens ctx = true) : e.isParen = false := by
  cases e
  case paren id x =>
    have hface : (Node.paren id x).face (fun _ => none) = .closed := by simp only [Node.face]
    have hprec : ¬ primaryPrec < ctx.minPrec := Nat.not_lt.mpr hctx
    rw [hface] at h
    simp [Face.needsParens, Face.closed, hprec] at h
  all_goals rfl

/-! ## Rows that are split at a node -/

namespace Piece

variable {R R' : Ctx → Ctx → Prop} {ps qs rs : List Piece}

theorem alike_of_aligned (h : List.Forall₂ (Aligned R) ps qs)
    (h' : List.Forall₂ (Aligned R') ps rs) : List.Forall₂ Alike qs rs := by
  induction h generalizing rs with
  | nil =>
    cases h'
    exact .nil
  | cons hpq _ ih =>
    cases h' with
    | cons hpr hrest =>
      refine .cons ?_ (ih hrest)
      cases hpq with
      | text s => cases hpr; exact .text s
      | line k => cases hpr; exact .line k
      | sub k m _ => cases hpr; exact .sub k m trivial

theorem exists_split_of_aligned {pre post : List Piece} {k : Nat} {ctx : Ctx} {m : AnyNode}
    (h : List.Forall₂ (Aligned R) (pre ++ .sub k ctx m :: post) qs) :
    ∃ pre' ctx' post', qs = pre' ++ .sub k ctx' m :: post' ∧ R ctx ctx' ∧
      List.Forall₂ (Aligned R) pre pre' := by
  induction pre generalizing qs with
  | nil =>
    cases h with
    | cons hpq hrest =>
      cases hpq with
      | sub k m hR => exact ⟨[], _, _, rfl, hR, .nil⟩
  | cons p pre ih =>
    cases h with
    | cons hpq hrest =>
      obtain ⟨pre', ctx', post', rfl, hR, hpre⟩ := ih hrest
      exact ⟨_ :: pre', ctx', post', rfl, hR, .cons hpq hpre⟩

end Piece

theorem Node.exists_split {c : Category} {n : Node c} {R : Ctx → Ctx → Prop}
    (hR : Ctx.Inherited R) (hn : n.isParen = false) {i : Nat} {ctx ctx' : Ctx} {m : AnyNode}
    (hm : .sub i ctx' m ∈ n.written ctx) (shows₁ shows₂ : Ctx → Node .expr → Bool) (ctx₁ : Ctx)
    {ctx₂ : Ctx} (h : R ctx ctx₂) :
    ∃ pre₁ c₁ post₁ pre₂ c₂ post₂, n.pieces shows₁ ctx₁ = pre₁ ++ .sub i c₁ m :: post₁ ∧
      n.pieces shows₂ ctx₂ = pre₂ ++ .sub i c₂ m :: post₂ ∧ R ctx' c₂ ∧
      List.Forall₂ Piece.Alike pre₁ pre₂ := by
  obtain ⟨pre, post, hsplit⟩ := List.append_of_mem hm
  have hal₁ := n.pieces_alike hn (fun _ _ => true) shows₁ ctx ctx₁
  have hal₂ := n.pieces_aligned hR (fun _ _ => true) shows₂ h hn
  rw [← written, hsplit] at hal₁ hal₂
  obtain ⟨pre₁, c₁, post₁, h₁, -, hpre₁⟩ := Piece.exists_split_of_aligned hal₁
  obtain ⟨pre₂, c₂, post₂, h₂, hR', hpre₂⟩ := Piece.exists_split_of_aligned hal₂
  exact ⟨pre₁, c₁, post₁, pre₂, c₂, post₂, h₁, h₂, hR', Piece.alike_of_aligned hpre₁ hpre₂⟩

theorem AnyNode.DistinctIds.not_mem_ids_beside {n m x : AnyNode} (hids : n.DistinctIds)
    {shows : Ctx → Node .expr → Bool} {ctx c : Ctx} {i : Nat} {pre post : List Piece}
    (h : n.node.pieces shows ctx = pre ++ .sub i c m :: post) (hx : x ∈ m.nodes) {i' : Nat} {c' : Ctx}
    {y : AnyNode} (hy : .sub i' c' y ∈ pre ++ post) : x.id ∉ y.ids := by
  have hnodup : (((n.node.pieces shows ctx).flatMap Piece.nodes).map (·.id)).Nodup :=
    nodup_pieces hids ctx
  rw [h, (List.perm_middle.flatMap_right _ |>.map _).nodup_iff, List.flatMap_cons,
    List.map_append] at hnodup
  intro hmem
  obtain ⟨z, hz, hzx⟩ := mem_ids_iff.mp hmem
  refine List.disjoint_of_nodup_append hnodup (List.mem_map_of_mem hx) ?_
  rw [← hzx]
  exact List.mem_map_of_mem (List.mem_flatMap.mpr ⟨_, hy, hz⟩)

/-! ## The two renderings -/

/-- The style of a trial: `arg` stands in for the expression with the id. -/
abbrev Style.trying (id : NodeId) (arg : Expr) (parenthesize : Bool) : Style :=
  .substituting ⟨id, arg, parenthesize⟩

namespace Trial

variable {id : NodeId} {arg : Expr}

theorem spares_iff {b : Bool} {n : AnyNode} : (Style.trying id arg b).Spares n ↔ id ∉ n.ids := by
  simp only [mem_ids_iff, Style.Spares, Style.trying, Style.substituting, ite_eq_right_iff,
    reduceCtorEq, imp_false, not_exists, not_and]
  exact forall₂_congr fun x _ => ne_comm

theorem standInFor_of_ne {b : Bool} {c : Category} {n : Node c} (h : n.id ≠ id) :
    (Style.trying id arg b).standInFor n = none := by
  simp [Style.standInFor, Style.trying, Style.substituting, h.symm]

theorem chars_target {x : Expr} (b : Bool) (depth : Nat) (ctx : Ctx) :
    x.chars (.trying x.id arg b) depth ctx =
      wrap (b && (arg.face fun _ => none).needsParens ctx)
        (arg.chars .canonical depth
          (if b && (arg.face fun _ => none).needsParens ctx then .plain else ctx)) := by
  rw [Node.chars, Node.doc_eq]
  simp only [Style.standInFor, Style.trying, Style.substituting, if_true]
  cases b && (arg.face fun _ => none).needsParens ctx <;> simp [wrap, Node.chars, Doc.toString]

theorem target_in_step {x : Expr} (hstep : InStep ⟨arg⟩) (hparen : arg.isParen = false)
    {j k depth : Nat} {ctx ctx' : Ctx} {s t : List Char}
    (hneeds : (arg.face fun _ => none).needsParens ctx' = true)
    (heq : List.replicate j '(' ++ (x.chars (.trying x.id arg false) depth ctx ++ s) =
      List.replicate k '(' ++ (x.chars (.trying x.id arg true) depth ctx' ++ t)) :
    j = k + 1 ∧ s = ')' :: t := by
  have hspares : Style.canonical.Spares ⟨arg⟩ := fun _ _ => rfl
  rw [chars_target, chars_target, hneeds, replicate_append_wrap, replicate_append_wrap] at heq
  obtain ⟨hrest, hjk⟩ :=
    hstep .canonical .canonical hspares hspares _ _ depth _ _ _ _ (Or.inl rfl) heq
  -- The argument is not in parentheses of its own, so the pair around it is the only difference.
  have hj : j = k + 1 := hjk hparen
  subst hj
  exact ⟨rfl, List.append_cancel_left hrest⟩

/-- The two renderings of a node agree only if it is `x` itself and the surroundings supply the
parentheses. -/
def TellsApart (x arg : Expr) (n : AnyNode) (ctx : Ctx) : Prop :=
  ∀ ⦃j k depth : Nat⦄ ⦃ctxB ctxW : Ctx⦄ ⦃s t : List Char⦄, ctx.AsksLess ctxW →
    (n.isExpr = true ∨ j = 0 ∧ k = 0) →
    List.replicate j '(' ++ (n.node.chars (.trying x.id arg false) depth ctxB ++ s) =
      List.replicate k '(' ++ (n.node.chars (.trying x.id arg true) depth ctxW ++ t) →
    n = ⟨x⟩ ∧ j = k + 1 ∧ s = ')' :: t

variable {x : Expr}

theorem TellsApart.paren {e : Expr} (h : TellsApart x arg ⟨e⟩ .plain) (he : e ≠ x) {id : NodeId}
    (hid : (Node.paren id e).id ≠ x.id) (ctx : Ctx) : TellsApart x arg ⟨.paren id e⟩ ctx := by
  intro j k depth ctxB ctxW s t _ _ heq
  rw [Node.chars_paren (standInFor_of_ne hid), Node.chars_paren (standInFor_of_ne hid),
    replicate_append_wrap, replicate_append_wrap] at heq
  obtain ⟨hex, -⟩ := h (Ctx.plain_asksLess _) (Or.inl rfl) heq
  cases hex
  exact (he rfl).elim

theorem TellsApart.of_piece {n m : AnyNode} {ctx ctx' : Ctx} {i : Nat} (h : TellsApart x arg m ctx')
    (hm : .sub i ctx' m ∈ n.node.written ctx) (hx : ⟨x⟩ ∈ m.nodes) (hids : n.DistinctIds)
    (htok : n.HasTokens) (hid : n.node.id ≠ x.id) (hparen : n.node.isParen = false) :
    TellsApart x arg n ctx := by
  intro j k depth ctxB ctxW s t hless hjk heq
  obtain ⟨preB, cB, postB, preW, cW, postW, hB, hW, hcW, hpre⟩ :=
    Node.exists_split Ctx.inherited_asksLess hparen hm (Style.trying x.id arg false).showsParens
      (Style.trying x.id arg true).showsParens ctxB hless
  have hsub : ∀ i' c' y, .sub i' c' y ∈ preB →
      (Style.trying x.id arg false).ReadsAlong (Style.trying x.id arg true) y := by
    intro i' c' y hy
    have hy' : .sub i' c' y ∈ n.node.pieces (Style.trying x.id arg false).showsParens ctxB := by
      rw [hB]
      exact List.mem_append_left _ hy
    have hbefore := hids.not_mem_ids_beside hB hx (List.mem_append_left _ hy)
    exact (inStep (htok.of_mem (Node.mem_nodes_of_piece hy' y.self_mem_nodes))).readsAlong
      (spares_iff.mpr hbefore) (spares_iff.mpr hbefore)
  rw [Node.chars_eq (standInFor_of_ne hid), Node.chars_eq (standInFor_of_ne hid)] at heq
  have hrows := heq
  rw [hB, hW] at hrows
  simp only [List.flatMap_append, List.flatMap_cons, List.append_assoc, Piece.chars_sub] at hrows
  cases preB with
  | nil =>
    cases hpre
    rcases hjk with hexpr | ⟨rfl, rfl⟩
    · obtain ⟨n⟩ := n
      simp only [isExpr, decide_eq_true_eq] at hexpr
      subst hexpr
      -- The operand that an expression opens with is followed by no closing parenthesis.
      have hopens := n.opens_pieces hparen (Style.trying x.id arg false).showsParens ctxB
      rw [hB] at hopens
      cases hopens with
      | operand c e z rest hz =>
        obtain ⟨-, -, hs⟩ := h hcW (Or.inl rfl) hrows
        obtain ⟨d, l, hzl, hd⟩ := hz.cons_toList
        simp only [List.flatMap_cons, Piece.chars_text, hzl, List.cons_append, List.cons.injEq] at hs
        exact (hd hs.1).elim
    · obtain ⟨-, hj, -⟩ := h hcW (Or.inr ⟨rfl, rfl⟩) hrows
      cases hj
  | cons p preB =>
    have hlevel : j = k := by
      rcases hjk with hexpr | ⟨rfl, rfl⟩
      · obtain ⟨n⟩ := n
        simp only [isExpr, decide_eq_true_eq] at hexpr
        subst hexpr
        refine (n.opens_pieces hparen _ ctxB).eq_of_rows (n.pieces_alike hparen _ _ _ _)
          (htok _ (self_mem_nodes _)) ?_ heq
        intro i' c' y hy
        rw [hB, List.cons_append, List.head?_cons, Option.some.injEq] at hy
        exact hsub i' c' y (hy ▸ List.mem_cons_self)
      · rfl
    subst hlevel
    have hrest := Piece.row_in_step hpre hsub (List.append_cancel_left hrows)
    obtain ⟨-, hj, -⟩ := h (j := 0) (k := 0) hcW (Or.inr ⟨rfl, rfl⟩) hrest
    cases hj

theorem tellsApart_of_shows {n : AnyNode} {ctxF ctx : Ctx} (h : Shows n ctxF ⟨x⟩ ctx)
    (hids : n.DistinctIds) (htok : n.HasTokens) (hstep : InStep ⟨arg⟩)
    (hparen : arg.isParen = false) (hneeds : (arg.face fun _ => none).needsParens ctx = true) :
    TellsApart x arg n ctxF := by
  generalize hy : (⟨x⟩ : AnyNode) = y at h
  induction h with
  | self n ctx =>
    subst hy
    intro j k depth ctxB ctxW s t hless _ heq
    exact ⟨rfl, target_in_step hstep hparen (Face.needsParens_mono _ hless hneeds) heq⟩
  | @piece n m y ctxF ctx₁ ctx i hm h ih =>
    subst hy
    have hmem : m ∈ n.nodes := Node.mem_nodes_of_piece hm m.self_mem_nodes
    have hid : n.node.id ≠ x.id := by
      intro he
      have := hids.eq_of_id n.self_mem_nodes (mem_nodes_trans hmem h.mem_nodes) he
      exact Node.ne_of_piece hm (this ▸ h.mem_nodes)
    have hm' : TellsApart x arg m ctx₁ := ih (hids.of_mem hmem) (htok.of_mem hmem) hneeds rfl
    cases hp : n.node.isParen with
    | true =>
      obtain ⟨n⟩ := n
      cases n <;> simp [Node.isParen] at hp
      case paren id e =>
        simp [Node.pieces] at hm
        obtain ⟨rfl, rfl, rfl⟩ := hm
        refine hm'.paren ?_ hid _
        -- Parentheses around `x` itself leave nothing to ask for.
        rintro rfl
        rw [h.self_ctx, Face.needsParens_plain] at hneeds
        cases hneeds
    | false => exact hm'.of_piece hm h.mem_nodes hids htok hid hp

end Trial

/-! ## The surroundings -/

/-- The nearest statement in whose header a node with these ancestors may be. -/
def headerAround : List AnyNode → Option AnyNode
  | [] => none
  | n :: ancestors =>
    if n.hasHeader then some n else if n.endsHeader then none else headerAround ancestors

theorem surroundings_eq (parent : AnyNode) (ancestors : List AnyNode) :
    ParensTrial.surroundings parent ancestors = (headerAround ancestors).getD parent := by
  induction ancestors with
  | nil => rfl
  | cons n ancestors ih =>
    obtain ⟨n⟩ := n
    cases n <;> first | rfl | exact ih

theorem mem_of_headerAround {n : AnyNode} {ancestors : List AnyNode}
    (h : headerAround ancestors = some n) : n ∈ ancestors := by
  induction ancestors with
  | nil => cases h
  | cons a ancestors ih =>
    rw [headerAround] at h
    split at h
    · cases h
      exact List.mem_cons_self
    · split at h
      · cases h
      · exact List.mem_cons_of_mem _ (ih h)

/-- The surroundings account for the context of a slot: the statement with the header shows it, or
it is in no header. -/
def Framed (n : AnyNode) (ancestors : List AnyNode) (ctx : Ctx) : Prop :=
  match headerAround ancestors with
  | some stmt => ∀ ctx', Shows stmt ctx' n ctx
  | none => ctx.inHeader = false

theorem Framed.piece {n m : AnyNode} {ancestors : List AnyNode} {ctx ctx' : Ctx} {k : Nat}
    (h : Framed n ancestors ctx) (hm : .sub k ctx' m ∈ n.node.written ctx) :
    Framed m (n :: ancestors) ctx' := by
  unfold Framed at h ⊢
  rw [headerAround]
  cases hhead : n.hasHeader with
  | true =>
    intro ctx₁
    exact .of_piece (Node.written_of_hasHeader hhead ctx ctx₁ ▸ hm)
  | false =>
    have hpass := Node.inHeader_of_piece hm
    cases hends : n.endsHeader with
    | true => simpa [hhead, hends] using hpass
    | false =>
      cases haround : headerAround ancestors with
      | some stmt =>
        simp only [haround] at h
        exact fun ctx₁ => (h ctx₁).trans (.of_piece hm)
      | none =>
        simp only [haround] at h
        simpa [hhead, hends, h] using hpass

theorem Shows.exists_framed {n x : AnyNode} {ctx ctx' : Ctx} (h : Shows n ctx x ctx')
    {ancestors : List AnyNode} (hn : Framed n ancestors ctx) :
    ∃ above, ⟨x, above⟩ ∈ n.visits ancestors ∧ Framed x above ctx' := by
  induction h generalizing ancestors with
  | self n ctx =>
    rw [visits_eq]
    exact ⟨ancestors, List.mem_cons_self, hn⟩
  | @piece n m x ctx ctx₁ ctx' k hm h ih =>
    have hframed := hn.piece hm
    rcases n.node.cases_of_piece hm with hchild | ⟨rfl, hmethod⟩
    · obtain ⟨above, hv, hx⟩ := ih hframed
      exact ⟨above, mem_visits_of_child hchild hv, hx⟩
    · -- The field and the type of a method are passed over.
      obtain ⟨fid, names, ft, params, results, hf, ht, hg⟩ := hmethod.exists_children
      have hframed' : Framed m (⟨.funcType ft params results⟩ ::
        ⟨.field fid names (.funcType ft params results)⟩ :: n :: ancestors) .plain := hframed
      obtain ⟨above, hv, hx⟩ := ih hframed'
      exact ⟨above, mem_visits_of_child hf (mem_visits_of_child ht (mem_visits_of_child hg hv)), hx⟩

theorem Node.sub_mem_written_plain {c : Category} {n : Node c} {k : Nat} {ctx ctx' : Ctx}
    {m : AnyNode} (hm : .sub k ctx' m ∈ n.written ctx) (hctx' : ctx'.inHeader = false)
    (hstmt : c = .stmt → ctx = .plain ∨ ctx = .header) : .sub k ctx' m ∈ n.written .plain := by
  have hR : Ctx.Inherited fun c c' => c.inHeader = false → c' = c :=
    ⟨fun _ _ => rfl, fun h p hp => by rw [h hp], fun h p s hp => by rw [h hp]⟩
  have hplain : ∀ ctx₁ : Ctx, (ctx₁.inHeader = false → Ctx.plain = ctx₁) →
      .sub k ctx' m ∈ n.written ctx₁ → .sub k ctx' m ∈ n.written .plain := by
    intro ctx₁ hctx₁ hm
    obtain ⟨ctx₂, hm₂, hctx₂⟩ := exists_slot hR hctx₁ hm
    exact hctx₂ hctx' ▸ hm₂
  by_cases hc : c = .stmt
  · rcases hstmt hc with rfl | rfl
    · exact hm
    · exact hplain .header (fun h => by cases h) hm
  · rw [written_prec hc] at hm
    refine hplain _ ?_ hm
    intro h
    simp only [Ctx.prec] at h
    simp [Ctx.plain, Ctx.prec, h]

theorem Shows.exists_parent {file : File} (hids : DistinctIds ⟨file⟩) {x : Expr} {ctx : Ctx}
    (h : Shows ⟨file⟩ .plain ⟨x⟩ ctx) {ancestors : List AnyNode}
    (hv : ⟨⟨x⟩, ancestors⟩ ∈ AnyNode.visits ⟨file⟩ []) :
    ∃ p ps ctxp k, ancestors = p :: ps ∧ Shows ⟨file⟩ .plain p ctxp ∧ Framed p ps ctxp ∧
      .sub k ctx ⟨x⟩ ∈ p.node.written ctxp := by
  rcases h.cases_last with ⟨heq, -⟩ | ⟨p, ctxp, k, hp, hx⟩
  · cases congrArg AnyNode.category heq
  have hroot : Framed ⟨file⟩ [] .plain := rfl
  obtain ⟨ps, hvp, hframed⟩ := hp.exists_framed hroot
  have hchild : ⟨x⟩ ∈ p.children := by
    rcases Node.cases_of_piece hx with h | ⟨-, hmethod⟩
    · exact h
    · change InMethod p ⟨x⟩ at hmethod
      cases hmethod
  have hvx : ⟨⟨x⟩, p :: ps⟩ ∈ AnyNode.visits ⟨file⟩ [] := by
    refine mem_visits_trans hvp (mem_visits_of_child hchild ?_)
    rw [visits_eq]
    exact List.mem_cons_self
  cases hids.visit_eq hv hvx rfl
  exact ⟨p, ps, ctxp, k, rfl, hp, hframed, hx⟩

theorem Shows.surroundings {file : File} (hids : DistinctIds ⟨file⟩) {x : Expr} {ctx : Ctx}
    (h : Shows ⟨file⟩ .plain ⟨x⟩ ctx) {ancestors : List AnyNode}
    (hv : ⟨⟨x⟩, ancestors⟩ ∈ AnyNode.visits ⟨file⟩ []) :
    ∃ parent rest, ancestors = parent :: rest ∧
      ParensTrial.surroundings parent ancestors ∈ AnyNode.nodes ⟨file⟩ ∧
      Shows (ParensTrial.surroundings parent ancestors) .plain ⟨x⟩ ctx := by
  obtain ⟨p, ps, ctxp, k, rfl, hp, hframed, hx⟩ := h.exists_parent hids hv
  refine ⟨p, ps, rfl, ?_⟩
  have hfx := hframed.piece hx
  rw [surroundings_eq]
  unfold Framed at hfx
  cases haround : headerAround (p :: ps) with
  | some stmt =>
    simp only [haround] at hfx
    have hmem := (mem_nodes_of_ancestor hv (mem_of_headerAround haround)).resolve_left List.not_mem_nil
    exact ⟨hmem, hfx .plain⟩
  | none =>
    simp only [haround] at hfx
    refine ⟨hp.mem_nodes, .of_piece (Node.sub_mem_written_plain hx hfx ?_)⟩
    intro hstmt
    rcases hp.cases_last with ⟨heq, rfl⟩ | ⟨q, ctxq, kq, -, hq⟩
    · exact Or.inl rfl
    · obtain ⟨p⟩ := p
      subst hstmt
      exact Node.ctx_of_stmt_piece hq

/-- If a trial finds the parentheses optional, the argument needs none in the slot of the
conversion. -/
theorem needsParens_eq_false_of_trial {file : File} (hids : DistinctIds ⟨file⟩)
    (htok : HasTokens ⟨file⟩) {x arg : Expr} (harg : ⟨arg⟩ ∈ AnyNode.nodes ⟨x⟩) {ctx : Ctx}
    (h : Shows ⟨file⟩ .plain ⟨x⟩ ctx) {ancestors : List AnyNode}
    (hv : ⟨⟨x⟩, ancestors⟩ ∈ AnyNode.visits ⟨file⟩ []) {trial : ParensTrial}
    (hrun : ParensTrial.run ancestors x.id arg = some trial) (hreq : trial.required = false) :
    (arg.face fun _ => none).needsParens ctx = false := by
  obtain ⟨parent, rest, rfl, hmem, hshow⟩ := h.surroundings hids hv
  have hagree : AnyNode.render (ParensTrial.surroundings parent (parent :: rest))
        (some ⟨x.id, arg, false⟩) =
      AnyNode.render (ParensTrial.surroundings parent (parent :: rest)) (some ⟨x.id, arg, true⟩) := by
    simp only [ParensTrial.run, List.head?_cons, Option.bind_eq_bind, Option.bind_some,
      Option.bind_eq_some_iff, Option.pure_def, Option.some.injEq] at hrun
    obtain ⟨slot, -, rfl⟩ := hrun
    simpa [ParensTrial.required] using hreq
  by_contra hneeds
  rw [Bool.not_eq_false] at hneeds
  have hstep : InStep ⟨arg⟩ := inStep (htok.of_mem (mem_nodes_trans h.mem_nodes harg))
  have hparen := Node.isParen_of_needsParens (h.minPrec_le (Nat.zero_le _)) hneeds
  have hapart := Trial.tellsApart_of_shows hshow (hids.of_mem hmem) (htok.of_mem hmem) hstep hparen hneeds
  simp only [render, print, String.append_right_inj] at hagree
  have hchars := congrArg (fun s => s.toList ++ []) hagree
  obtain ⟨-, hj, -⟩ := hapart (j := 0) (k := 0) (Ctx.plain_asksLess _) (Or.inr ⟨rfl, rfl⟩) hchars
  cases hj

end ConvSweep
