import ConvSweep.Proofs.Decisions
import ConvSweep.Proofs.Header
import ConvSweep.Proofs.Precedence
import ConvSweep.Proofs.Verdict

/-! # What the answers of a trial mean

A trial finds the parentheses optional only if the argument needs none in the slot of the call. It
finds them required if the argument needs them there, and in a header also if the two renderings do
not group alike further out.
-/

namespace ConvSweep

open AnyNode

/-! ## Every call is tried -/

theorem AnyNode.exists_slotOf {p : AnyNode} {x : Expr} (hx : ⟨x⟩ ∈ p.children) :
    ∃ slot, p.slotOf x.id = some slot := by
  obtain ⟨⟨slot, m⟩, hmem, hm⟩ := List.mem_map.mp hx
  rw [← Option.isSome_iff_exists, slotOf, Option.isSome_map, List.find?_isSome]
  refine ⟨(slot, m), hmem, ?_⟩
  cases hm
  simp [isExpr, AnyNode.id]

theorem ParensTrial.exists_run {file : File} {x : Expr} {ancestors : List AnyNode}
    (hv : ⟨⟨x⟩, ancestors⟩ ∈ AnyNode.visits ⟨file⟩ []) (arg : Expr) :
    ∃ trial, run ancestors x.id arg = some trial := by
  rcases visit_cases hv with ⟨heq, -⟩ | ⟨p, ps, rfl, -, hx⟩
  · cases congrArg AnyNode.category heq
  · obtain ⟨slot, hslot⟩ := exists_slotOf hx
    exact ⟨_, by rw [run, List.head?_cons, Option.bind_eq_bind, Option.bind_some, hslot]; rfl⟩

theorem Shows.first_arg (id : NodeId) (callee arg : Expr) (args : List Expr) (spread : Bool)
    (ctx : Ctx) : Shows ⟨.call id callee (arg :: args) spread⟩ ctx ⟨arg⟩ .plain := by
  refine .of_piece (k := 0) ?_
  simp only [Node.written, Node.pieces, List.mem_append, Piece.sub_mem_exprs]
  exact Or.inl (Or.inr ⟨trivial, rfl, arg, List.mem_cons_self, rfl⟩)

/-- Where the trial of a call finds the parentheses optional, the first argument stands bare. -/
theorem stands_bare_if_optional {file : File} (hids : DistinctIds ⟨file⟩) (htok : HasTokens ⟨file⟩)
    {id : NodeId} {callee arg : Expr} {args : List Expr} {spread : Bool} {ancestors : List AnyNode}
    (hv : ⟨⟨.call id callee (arg :: args) spread⟩, ancestors⟩ ∈ AnyNode.visits ⟨file⟩ []) {ctx : Ctx}
    (h : Shows ⟨file⟩ .plain ⟨.call id callee (arg :: args) spread⟩ ctx) :
    ∃ trial, ParensTrial.run ancestors id arg = some trial ∧
      (trial.required = false → (arg.face fun _ => none).needsParens ctx = false) := by
  obtain ⟨trial, hrun⟩ := ParensTrial.exists_run hv arg
  have harg := (Shows.first_arg id callee arg args spread ctx).mem_nodes
  exact ⟨trial, hrun, needsParens_eq_false_of_trial hids htok harg h hv hrun⟩

/-- `_ = a - int(-x) * b`: a conversion of a negated factor. -/
def negatedFactor : SourceUnit := .ofBody
  [.assign 1 [.ident 2 "_"] .assign [.binary 3 (.ident 4 "a") .sub (.binary 5
    (.call 6 (.ident 7 "int") [.unary 8 .neg (.ident 9 "x")] false) .mul (.ident 10 "b"))]]
  [(6, ⟨.value, .basic .int⟩), (7, ⟨.type, .basic .int⟩), (8, ⟨.value, .basic .int⟩)]

theorem distinctIds_negatedFactor : DistinctIds ⟨negatedFactor.file⟩ := by decide +kernel

theorem hasTokens_negatedFactor : HasTokens ⟨negatedFactor.file⟩ := hasTokens_iff.mpr (by decide +kernel)

theorem shows_negatedFactor : Shows ⟨negatedFactor.file⟩ .plain
    ⟨.call 6 (.ident 7 "int") [.unary 8 .neg (.ident 9 "x")] false⟩ ⟨5, none, false⟩ :=
  mem_slots.mp (List.mem_of_getElem? (i := 9) (by cbv))

theorem optional_negatedFactor :
    ∀ v ∈ AnyNode.visits ⟨negatedFactor.file⟩ [], v.node.id = 6 →
      (ParensTrial.run v.ancestors 6 (.unary 8 .neg (.ident 9 "x"))).map (·.required) =
        some false := by
  decide +kernel

/-- `-x` may stand before a `*`. -/
theorem negatedFactor_stands_bare :
    ∃ ancestors trial ctx,
      ⟨⟨.call 6 (.ident 7 "int") [.unary 8 .neg (.ident 9 "x")] false⟩, ancestors⟩ ∈
        AnyNode.visits ⟨negatedFactor.file⟩ [] ∧
      Shows ⟨negatedFactor.file⟩ .plain
        ⟨.call 6 (.ident 7 "int") [.unary 8 .neg (.ident 9 "x")] false⟩ ctx ∧
      ParensTrial.run ancestors 6 (.unary 8 .neg (.ident 9 "x")) = some trial ∧
      trial.required = false ∧
      ((Node.unary 8 .neg (.ident 9 "x")).face fun _ => none).needsParens ctx = false := by
  obtain ⟨ancestors, hv⟩ := exists_visit [] shows_negatedFactor.mem_nodes
  obtain ⟨trial, hrun, hbare⟩ := stands_bare_if_optional distinctIds_negatedFactor
    hasTokens_negatedFactor hv shows_negatedFactor
  have hoptional : trial.required = false := by
    simpa [hrun] using optional_negatedFactor _ hv rfl
  exact ⟨ancestors, trial, _, hv, shows_negatedFactor, hrun, hoptional, hbare hoptional⟩

/-! ## Slots of a rendering -/

/-- Printing `n` in the style, into a slot with `ctx`, prints `x` into a slot with `ctx'`. -/
inductive Style.Prints (style : Style) : AnyNode → Ctx → AnyNode → Ctx → Prop
  | self (n : AnyNode) (ctx : Ctx) : Prints style n ctx n ctx
  | piece {n m x : AnyNode} {ctx ctx₁ ctx' : Ctx} {k : Nat} (hn : style.standInFor n.node = none)
      (hm : .sub k ctx₁ m ∈ n.node.pieces style.showsParens ctx) (h : Prints style m ctx₁ x ctx') :
      Prints style n ctx x ctx'

namespace Style.Prints

variable {style : Style} {n x y : AnyNode} {ctx ctx' ctx'' : Ctx}

theorem trans (h : style.Prints n ctx x ctx') (h' : style.Prints x ctx' y ctx'') :
    style.Prints n ctx y ctx'' := by
  induction h with
  | self => exact h'
  | piece hn hm _ ih => exact .piece hn hm (ih h')

theorem mem_nodes (h : style.Prints n ctx x ctx') : x ∈ n.nodes := by
  induction h with
  | self n => exact n.self_mem_nodes
  | piece _ hm _ ih => exact Node.mem_nodes_of_piece hm ih

end Style.Prints

theorem Node.pieces_cases {c : Category} (n : Node c) (shows : Ctx → Node .expr → Bool) (ctx : Ctx) :
    n.pieces shows ctx = n.written ctx ∨
      ∃ id e, (⟨n⟩ : AnyNode) = ⟨.paren id e⟩ ∧ shows ctx e = false := by
  cases hparen : n.isParen with
  | false => exact Or.inl (pieces_of_not_paren hparen _ _ _)
  | true =>
    cases n <;> simp [isParen] at hparen
    case paren id e =>
      cases hshows : shows ctx e with
      | true => exact Or.inl (by simp [Node.pieces, hshows])
      | false => exact Or.inr ⟨id, e, rfl, hshows⟩

theorem AnyNode.DistinctIds.piece_eq {n m m' x : AnyNode} (hids : n.DistinctIds)
    {shows : Ctx → Node .expr → Bool} {ctx c c' : Ctx} {k k' : Nat}
    (hm : .sub k c m ∈ n.node.pieces shows ctx) (hm' : .sub k' c' m' ∈ n.node.pieces shows ctx)
    (hx : x ∈ m.nodes) (hx' : x ∈ m'.nodes) : k' = k ∧ c' = c ∧ m' = m := by
  obtain ⟨pre, post, hsplit⟩ := List.append_of_mem hm
  rw [hsplit, List.mem_append, List.mem_cons] at hm'
  have hbeside : .sub k' c' m' ∉ pre ++ post := fun hmem =>
    hids.not_mem_ids_beside hsplit hx hmem (id_mem_ids hx')
  rcases hm' with hmem | heq | hmem
  · exact (hbeside (List.mem_append_left _ hmem)).elim
  · simpa using heq
  · exact (hbeside (List.mem_append_right _ hmem)).elim

theorem Style.Prints.ctx_cases {style : Style} {n x : AnyNode} {ctx ctx₁ ctx₂ : Ctx}
    (h : style.Prints n ctx x ctx₁) (hids : n.DistinctIds) (hshow : Shows n ctx x ctx₂) :
    ctx₁ = ctx₂ ∨ ∃ id e ctx', style.Prints n ctx ⟨.paren id e⟩ ctx' ∧
      style.showsParens ctx' e = false ∧ style.Prints ⟨e⟩ ctx' x ctx₁ := by
  induction h with
  | self n ctx => exact Or.inl hshow.self_ctx.symm
  | @piece n m x ctx ctx' ctx₁ k hn hm h ih =>
    rcases n.node.pieces_cases style.showsParens ctx with hwritten | ⟨id, e, heq, hout⟩
    · have hm₁ := hwritten ▸ hm
      cases hshow with
      | self => exact (Node.ne_of_piece hm₁ h.mem_nodes).elim
      | piece hm₂ hshow =>
        obtain ⟨rfl, rfl, rfl⟩ := hids.piece_eq hm₁ hm₂ h.mem_nodes hshow.mem_nodes
        have hids' := hids.of_mem (Node.mem_nodes_of_piece hm₁ (self_mem_nodes _))
        rcases ih hids' hshow with heq | ⟨id, e, ctx'', hp, hout, he⟩
        · exact Or.inl heq
        · exact Or.inr ⟨id, e, ctx'', .piece hn hm hp, hout, he⟩
    · obtain ⟨n⟩ := n
      cases heq
      simp [Node.pieces, hout] at hm
      obtain ⟨rfl, rfl, rfl⟩ := hm
      exact Or.inr ⟨id, e, _, .self _ _, hout, h⟩

/-! ## Why parentheses are required -/

namespace Trial

/-- The rendering of `n` with `arg` bare shows it in a slot where it needs parentheses. -/
def NeedsOwn (t : NodeId) (arg : Expr) (n : AnyNode) (ctx : Ctx) : Prop :=
  ∃ (x : Expr) (ctx' : Ctx), x.id = t ∧ (Style.trying t arg false).Prints n ctx ⟨x⟩ ctx' ∧
    (arg.face fun _ => none).needsParens ctx' = true

/-- The rendering of `n` with `arg` bare comes to written parentheses around more than `t` that only
one of the two renderings shows. -/
def Splits (t : NodeId) (arg : Expr) (n : AnyNode) (ctx : Ctx) : Prop :=
  ∃ id e ctx', (Style.trying t arg false).Prints n ctx ⟨.paren id e⟩ ctx' ∧ e.id ≠ t ∧
    (Style.trying t arg false).showsParens ctx' e ≠ (Style.trying t arg true).showsParens ctx' e

/-- Written parentheses around more than `t` are shown by one rendering only, or are left out, and
then `arg` needs its own. -/
def Regroups (t : NodeId) (arg : Expr) (n : AnyNode) : Prop :=
  Splits t arg n .plain ∨
    ∃ id e ctx, (Style.trying t arg false).Prints n .plain ⟨.paren id e⟩ ctx ∧ e.id ≠ t ∧
      (Style.trying t arg false).showsParens ctx e = false ∧ NeedsOwn t arg ⟨e⟩ ctx

variable {t : NodeId} {arg : Expr} {n m : AnyNode} {ctx ctx' : Ctx}

theorem prints_paren {id : NodeId} (hid : id ≠ t) (e : Expr) (ctx : Ctx) :
    (Style.trying t arg false).Prints ⟨.paren id e⟩ ctx ⟨e⟩
      (if (Style.trying t arg false).showsParens ctx e then .plain else ctx) := by
  refine .piece (k := 0) (standInFor_of_ne hid) ?_ (.self _ _)
  simp only [Node.pieces]
  split <;> simp

theorem prints_piece {k : Nat} (hid : n.node.id ≠ t) (hparen : n.node.isParen = false)
    (hm : .sub k ctx' m ∈ n.node.written ctx) : (Style.trying t arg false).Prints n ctx m ctx' := by
  rw [Node.written, Node.pieces_of_not_paren hparen _ (Style.trying t arg false).showsParens] at hm
  exact .piece (standInFor_of_ne hid) hm (.self _ _)

theorem needsOwn_or_splits_of_prints (hp : (Style.trying t arg false).Prints n ctx m ctx')
    (h : NeedsOwn t arg m ctx' ∨ Splits t arg m ctx') : NeedsOwn t arg n ctx ∨ Splits t arg n ctx := by
  rcases h with ⟨x, c, hx, hpx, hneeds⟩ | ⟨id, e, c, hpe, he⟩
  · exact Or.inl ⟨x, c, hx, hp.trans hpx, hneeds⟩
  · exact Or.inr ⟨id, e, c, hp.trans hpe, he⟩

theorem needsOwn_or_splits {b : Bool} (h : Verdict t (arg.face fun _ => none) n ctx b)
    (hb : b = true) : NeedsOwn t arg n ctx ∨ Splits t arg n ctx := by
  induction h with
  | target ctx hx => exact Or.inl ⟨_, ctx, hx, .self _ _, hb⟩
  | piece hn hparen hm _ ih => exact needsOwn_or_splits_of_prints (prints_piece hn hparen hm) (ih hb)
  | paren hn _ _ ih => exact needsOwn_or_splits_of_prints (prints_paren hn _ _) (ih hb)
  | supplied => cases hb
  | shifted _ hx hdiffer => exact Or.inr ⟨_, _, _, .self _ _, hx, hdiffer⟩

theorem id_ne_of_piece {shows : Ctx → Node .expr → Bool} {k : Nat} (hids : n.DistinctIds)
    (hm : .sub k ctx' m ∈ n.node.pieces shows ctx) (ht : t ∈ m.ids) : n.node.id ≠ t := by
  rintro rfl
  obtain ⟨y, hy, hid⟩ := mem_ids_iff.mp ht
  have heq := hids.eq_of_id (Node.mem_nodes_of_piece hm hy) n.self_mem_nodes hid
  have hlt := n.node.smaller_pieces _ ctx _ hm _ _ _ rfl
  subst heq
  rcases sizeOf_le_of_mem_nodes hy with rfl | hlt'
  · exact Nat.lt_irrefl _ hlt
  · exact Nat.lt_asymm hlt hlt'

theorem id_ne_of_paren {id : NodeId} {e : Expr} (hids : DistinctIds ⟨.paren id e⟩)
    (ht : t ∈ AnyNode.ids ⟨e⟩) : id ≠ t := by
  have hpiece : .sub 0 .plain ⟨e⟩ ∈ (Node.paren id e).written .plain := by simp [Node.pieces]
  exact id_ne_of_piece hids hpiece ht

theorem mem_ids_of_differ {e : Expr} (h : (Style.trying t arg false).showsParens ctx e ≠
    (Style.trying t arg true).showsParens ctx e) : t ∈ AnyNode.ids ⟨e⟩ := by
  by_contra hmem
  refine h ?_
  rw [showsParens_trying, showsParens_trying, Node.face_standing hmem, Node.face_standing hmem]

theorem verdict_of_id {f : Face} {e : Expr} {b : Bool} (h : Verdict t f ⟨e⟩ ctx b) (he : e.id = t) :
    b = f.needsParens ctx := by
  cases h with
  | target => rfl
  | piece hn => exact (hn he).elim
  | paren hn | supplied hn | shifted hn => exact (hn he).elim

theorem verdict_of_prints (h : (Style.trying t arg false).Prints n ctx m ctx') (hids : n.DistinctIds)
    (hv : Verdict t (arg.face fun _ => none) m ctx' true) :
    Verdict t (arg.face fun _ => none) n ctx true := by
  induction h with
  | self => exact hv
  | @piece n m y ctx ctx₁ ctx' k hstand hm h ih =>
    have hv' := ih (hids.of_mem (Node.mem_nodes_of_piece hm m.self_mem_nodes)) hv
    have hid := id_ne_of_piece hids hm hv'.mem_ids
    cases hparen : n.node.isParen with
    | false =>
      rw [Node.pieces_of_not_paren hparen _ fun _ _ => true] at hm
      exact .piece hid hparen hm hv'
    | true =>
      obtain ⟨n⟩ := n
      cases n <;> simp [Node.isParen] at hparen
      case paren id e =>
        have hpiece : m = ⟨e⟩ ∧
            ctx₁ = if (Style.trying t arg false).showsParens ctx e then .plain else ctx := by
          simp only [Node.pieces] at hm
          split at hm <;> simp_all
        obtain ⟨rfl, rfl⟩ := hpiece
        by_cases hsame : (Style.trying t arg false).showsParens ctx e =
            (Style.trying t arg true).showsParens ctx e
        · exact .paren hid hsame hv'
        · refine .shifted hid ?_ hsame
          -- Parentheses around `t` itself are shown wherever it needs them.
          intro he
          have hneeds := verdict_of_id hv' he
          rw [showsParens_trying, Node.face_of_id he] at hneeds
          simp only [Bool.false_eq_true, if_false] at hneeds
          split at hneeds <;> simp_all

theorem Regroups.verdict (h : Regroups t arg n) (hids : n.DistinctIds) :
    Verdict t (arg.face fun _ => none) n .plain true := by
  rcases h with ⟨id, e, ctx, hp, he, hdiffer⟩ | ⟨id, e, ctx, hp, he, hout, x, ctx', hx, hpx, hneeds⟩
  · have hid := id_ne_of_paren (hids.of_mem hp.mem_nodes) (mem_ids_of_differ hdiffer)
    exact verdict_of_prints hp hids (.shifted hid he hdiffer)
  · have hid := id_ne_of_paren (hids.of_mem hp.mem_nodes) (mem_ids_iff.mpr ⟨_, hpx.mem_nodes, hx⟩)
    have hinside := @prints_paren t arg id hid e ctx
    rw [hout, if_neg Bool.false_ne_true] at hinside
    exact verdict_of_prints (hp.trans (hinside.trans hpx)) hids (hneeds ▸ .target ctx' hx)

theorem NeedsOwn.cases {x : Expr} (h : NeedsOwn x.id arg n .plain) (hids : n.DistinctIds)
    (hshow : Shows n .plain ⟨x⟩ ctx) :
    (arg.face fun _ => none).needsParens ctx = true ∨ Regroups x.id arg n := by
  obtain ⟨y, ctx', hy, hp, hneeds⟩ := h
  cases hids.eq_of_id hp.mem_nodes hshow.mem_nodes hy
  rcases hp.ctx_cases hids hshow with rfl | ⟨id, e, c, hpe, hout, hpx⟩
  · exact Or.inl hneeds
  · refine Or.inr (Or.inr ⟨id, e, c, hpe, ?_, hout, x, ctx', rfl, hpx, hneeds⟩)
    -- Parentheses around the call alone are shown if the argument needs them.
    intro he
    cases hids.eq_of_id (mem_nodes_trans hpe.mem_nodes (child_mem_nodes (paren_mem_children ..)))
      hshow.mem_nodes he
    cases hpx with
    | self =>
      rw [showsParens_trying, Node.face_of_id rfl, if_neg Bool.false_ne_true, hneeds] at hout
      cases hout
    | piece hstand => simp [Style.standInFor, Style.substituting] at hstand

theorem id_eq_of_paren {p : AnyNode} (hids : p.DistinctIds) {x : Expr} (hx : ⟨x⟩ ∈ p.children)
    {id : NodeId} {e : Expr} (hmem : ⟨.paren id e⟩ ∈ p.nodes) (he : x.id ∈ AnyNode.ids ⟨e⟩) :
    e.id = x.id := by
  obtain ⟨y, hy, hid⟩ := mem_ids_iff.mp he
  have hchild : ⟨e⟩ ∈ AnyNode.children ⟨.paren id e⟩ := paren_mem_children id e
  have hmem' := mem_nodes_trans hmem (child_mem_nodes hchild)
  cases hids.eq_of_id (mem_nodes_trans hmem' hy) (child_mem_nodes hx) hid
  rcases mem_nodes_iff.mp hmem with rfl | ⟨m, hm, hin⟩
  · simp [AnyNode.children, Node.children] at hx
    rw [hx]
  · -- Otherwise the parentheses are inside the expression that is inside them.
    have hxp := mem_nodes_of_child hchild hy
    cases hids.children_eq hx hm (self_mem_nodes _) (mem_nodes_trans hin hxp)
    cases nodes_antisymm hin hxp
    exact (not_mem_nodes_child hchild hy).elim

theorem not_regroups_parent {p : AnyNode} (hids : p.DistinctIds) {x : Expr}
    (hx : ⟨x⟩ ∈ p.children) : ¬ Regroups x.id arg p := by
  rintro (⟨id, e, ctx, hp, he, hdiffer⟩ | ⟨id, e, ctx, hp, he, -, y, ctx', hy, hpy, -⟩)
  · exact he (id_eq_of_paren hids hx hp.mem_nodes (mem_ids_of_differ hdiffer))
  · exact he (id_eq_of_paren hids hx hp.mem_nodes (mem_ids_iff.mpr ⟨_, hpy.mem_nodes, hy⟩))

theorem Regroups.exists_header {file : File} (hids : DistinctIds ⟨file⟩) {x : Expr} {parent : AnyNode}
    {rest : List AnyNode} (hv : ⟨⟨x⟩, parent :: rest⟩ ∈ AnyNode.visits ⟨file⟩ [])
    (h : Regroups x.id arg (ParensTrial.surroundings parent (parent :: rest))) :
    ∃ stmt, headerAround (parent :: rest) = some stmt ∧ Regroups x.id arg stmt := by
  rw [surroundings_eq] at h
  cases hstmt : headerAround (parent :: rest) with
  | some stmt => exact ⟨stmt, rfl, by rwa [hstmt] at h⟩
  | none =>
    rw [hstmt] at h
    rcases visit_cases hv with ⟨-, hnil⟩ | ⟨p, ps, heq, hp, hchild⟩
    · cases hnil
    · cases heq
      exact (not_regroups_parent (hids.of_mem (mem_nodes_of_visit hp)) hchild h).elim

end Trial

/-- The trial of a call finds the parentheses required exactly if its first argument needs them in
the slot of the call, or the statement whose header it is in is grouped otherwise without them. -/
theorem parens_required_iff {file : File} (hids : DistinctIds ⟨file⟩) (htok : HasTokens ⟨file⟩)
    {id : NodeId} {callee arg : Expr} {args : List Expr} {spread : Bool} {ancestors : List AnyNode}
    (hv : ⟨⟨.call id callee (arg :: args) spread⟩, ancestors⟩ ∈ AnyNode.visits ⟨file⟩ []) {ctx : Ctx}
    (h : Shows ⟨file⟩ .plain ⟨.call id callee (arg :: args) spread⟩ ctx) :
    ∃ trial, ParensTrial.run ancestors id arg = some trial ∧
      (trial.required = true ↔ (arg.face fun _ => none).needsParens ctx = true ∨
        ∃ stmt, headerAround ancestors = some stmt ∧ Trial.Regroups id arg stmt) := by
  obtain ⟨trial, hrun⟩ := ParensTrial.exists_run hv arg
  refine ⟨trial, hrun, ?_⟩
  have harg := (Shows.first_arg id callee arg args spread ctx).mem_nodes
  obtain ⟨parent, rest, rfl, hmem, hshow⟩ := h.surroundings hids hv
  have hids' := hids.of_mem hmem
  have hreq := fun b hb => ParensTrial.required_eq (b := b) hrun hb hids' (htok.of_mem hmem)
    (inStep (htok.of_mem (mem_nodes_trans h.mem_nodes harg)))
  constructor
  · intro hrequired
    have hplain : Ctx.plain.minPrec ≤ primaryPrec := Nat.zero_le _
    obtain ⟨b, hb⟩ := hshow.exists_verdict hids' (arg.face fun _ => none) hplain
    have houtward := @Trial.Regroups.exists_header arg file hids _ parent rest hv
    rcases Trial.needsOwn_or_splits hb (hreq b hb ▸ hrequired) with hown | hsplits
    · exact (hown.cases hids' hshow).imp_right houtward
    · exact Or.inr (houtward (Or.inl hsplits))
  · rintro (hneeds | ⟨stmt, hstmt, hregroups⟩)
    · by_contra hoptional
      rw [Bool.not_eq_true] at hoptional
      rw [needsParens_eq_false_of_trial hids htok harg h hv hrun hoptional] at hneeds
      cases hneeds
    · have haround := surroundings_eq parent (parent :: rest)
      rw [hstmt, Option.getD_some] at haround
      rw [← haround] at hregroups
      exact hreq true (hregroups.verdict hids')

/-- `_ = int(a + b) * c`: a sum that needs its parentheses. -/
def convertedFactor : SourceUnit := .ofBody
  [.assign 1 [.ident 2 "_"] .assign [.binary 3 (.call 4 (.ident 5 "int")
    [.binary 6 (.ident 7 "a") .add (.ident 8 "b")] false) .mul (.ident 9 "c")]]
  [(4, ⟨.value, .basic .int⟩), (5, ⟨.type, .basic .int⟩), (6, ⟨.value, .basic .int⟩)]

/-- `if (T(T{}) == x) {}`: a comparison of a converted literal, in parentheses. -/
def comparedLiteral : SourceUnit := .ofBody
  [.ifStmt 1 none (.paren 2 (.binary 3 (.call 4 (.ident 5 "T")
    [.composite 6 (some (.ident 7 "T")) []] false) .eql (.ident 8 "x"))) (.block 9 []) none]
  [(4, ⟨.value, .named ⟨1, some "p", "T", none⟩⟩), (5, ⟨.type, .named ⟨1, some "p", "T", none⟩⟩),
    (6, ⟨.value, .named ⟨1, some "p", "T", none⟩⟩)]

theorem distinctIds_comparedLiteral : DistinctIds ⟨comparedLiteral.file⟩ := by decide +kernel

theorem hasTokens_comparedLiteral : HasTokens ⟨comparedLiteral.file⟩ := hasTokens_iff.mpr (by decide +kernel)

theorem shows_comparedLiteral : Shows ⟨comparedLiteral.file⟩ .plain
    ⟨.call 4 (.ident 5 "T") [.composite 6 (some (.ident 7 "T")) []] false⟩ ⟨3, none, false⟩ :=
  mem_slots.mp (List.mem_of_getElem? (i := 7) (by cbv))

theorem required_comparedLiteral :
    ∀ v ∈ AnyNode.visits ⟨comparedLiteral.file⟩ [], v.node.id = 4 →
      (ParensTrial.run v.ancestors 4 (.composite 6 (some (.ident 7 "T")) [])).map (·.required) =
        some true := by
  decide +kernel

/-- The sum needs its parentheses in the slot of the call; the literal needs none there, but the
renderings are `if (T{} == x) {` and `if (T{}) == x {`. -/
theorem comparedLiteral_regroups :
    (∃ ancestors trial ctx,
      ⟨⟨.call 4 (.ident 5 "int") [.binary 6 (.ident 7 "a") .add (.ident 8 "b")] false⟩, ancestors⟩ ∈
        AnyNode.visits ⟨convertedFactor.file⟩ [] ∧
      Shows ⟨convertedFactor.file⟩ .plain
        ⟨.call 4 (.ident 5 "int") [.binary 6 (.ident 7 "a") .add (.ident 8 "b")] false⟩ ctx ∧
      ((Node.binary 6 (.ident 7 "a") .add (.ident 8 "b")).face fun _ => none).needsParens ctx = true ∧
      ParensTrial.run ancestors 4 (.binary 6 (.ident 7 "a") .add (.ident 8 "b")) = some trial ∧
      trial.required = true) ∧
    ∃ ancestors trial stmt,
      ⟨⟨.call 4 (.ident 5 "T") [.composite 6 (some (.ident 7 "T")) []] false⟩, ancestors⟩ ∈
        AnyNode.visits ⟨comparedLiteral.file⟩ [] ∧
      ParensTrial.run ancestors 4 (.composite 6 (some (.ident 7 "T")) []) = some trial ∧
      trial.required = true ∧ headerAround ancestors = some stmt ∧
      Trial.Regroups 4 (.composite 6 (some (.ident 7 "T")) []) stmt := by
  constructor
  · have hids : DistinctIds ⟨convertedFactor.file⟩ := by decide +kernel
    have htok : HasTokens ⟨convertedFactor.file⟩ := hasTokens_iff.mpr (by decide +kernel)
    have hshow : Shows ⟨convertedFactor.file⟩ .plain
        ⟨.call 4 (.ident 5 "int") [.binary 6 (.ident 7 "a") .add (.ident 8 "b")] false⟩
        ⟨5, none, false⟩ :=
      mem_slots.mp (List.mem_of_getElem? (i := 7) (by cbv))
    have hneeds : ((Node.binary 6 (.ident 7 "a") .add (.ident 8 "b")).face fun _ => none).needsParens
        ⟨5, none, false⟩ = true := by
      decide +kernel
    obtain ⟨ancestors, hv⟩ := exists_visit [] hshow.mem_nodes
    obtain ⟨trial, hrun, hiff⟩ := parens_required_iff hids htok hv hshow
    exact ⟨ancestors, trial, _, hv, hshow, hneeds, hrun, hiff.mpr (Or.inl hneeds)⟩
  · obtain ⟨ancestors, hv⟩ := exists_visit [] shows_comparedLiteral.mem_nodes
    obtain ⟨trial, hrun, hiff⟩ := parens_required_iff distinctIds_comparedLiteral
      hasTokens_comparedLiteral hv shows_comparedLiteral
    have hrequired : trial.required = true := by
      simpa [hrun] using required_comparedLiteral _ hv rfl
    rcases hiff.mp hrequired with hneeds | ⟨stmt, hstmt, hregroups⟩
    · exact absurd hneeds (by decide +kernel)
    · exact ⟨ancestors, trial, stmt, hv, hrun, hrequired, hstmt, hregroups⟩

/-- The literal needs no parentheses inside the written ones, and the trial requires them. -/
theorem comparedLiteral_requires_unneeded :
    DistinctIds ⟨comparedLiteral.file⟩ ∧ HasTokens ⟨comparedLiteral.file⟩ ∧
      PrecedenceKept comparedLiteral.file ∧ HeaderSafe ⟨comparedLiteral.file⟩ .plain ∧
      ∃ ancestors trial ctx,
        ⟨⟨.call 4 (.ident 5 "T") [.composite 6 (some (.ident 7 "T")) []] false⟩, ancestors⟩ ∈
          AnyNode.visits ⟨comparedLiteral.file⟩ [] ∧
        Shows ⟨comparedLiteral.file⟩ .plain
          ⟨.call 4 (.ident 5 "T") [.composite 6 (some (.ident 7 "T")) []] false⟩ ctx ∧
        ParensTrial.run ancestors 4 (.composite 6 (some (.ident 7 "T")) []) = some trial ∧
        trial.required = true ∧
        ((Node.composite 6 (some (.ident 7 "T")) []).face fun _ => none).needsParens ctx = false := by
  have hprec : PrecedenceKept comparedLiteral.file := precedenceKept_iff.mpr (by decide +kernel)
  have hsafe : HeaderSafe ⟨comparedLiteral.file⟩ .plain := by decide +kernel
  obtain ⟨ancestors, hv⟩ := exists_visit [] shows_comparedLiteral.mem_nodes
  obtain ⟨trial, hrun, hrequired⟩ :=
    Option.map_eq_some_iff.mp (required_comparedLiteral _ hv rfl)
  exact ⟨distinctIds_comparedLiteral, hasTokens_comparedLiteral, hprec, hsafe, ancestors, trial, _, hv,
    shows_comparedLiteral, hrun, hrequired, by decide +kernel⟩

end ConvSweep
