import ConvSweep.Proofs.Prune
import ConvSweep.Proofs.Slots

/-! # Slots of a pruned tree

`Leaves` walks through a tree and takes conversions out on the way. It says which node ends up in
which slot, so the slots of the pruned tree can be read off the tree as it was.
-/

namespace ConvSweep

open AnyNode

/-- With the conversions of `plan` taken out of `n`, which is in a slot with `ctx`, the node `x` is
left in a slot with `ctx'`. -/
inductive Leaves (plan : Plan) : AnyNode → Ctx → AnyNode → Ctx → Prop
  | self (n : AnyNode) (ctx : Ctx) : Leaves plan n ctx n ctx
  | bare {id : NodeId} {callee arg : Expr} {spread : Bool} {x : AnyNode} {ctx ctx' : Ctx}
      (hid : plan id = some .bare) (h : Leaves plan ⟨arg⟩ ctx x ctx') :
      Leaves plan ⟨.call id callee [arg] spread⟩ ctx x ctx'
  | wrapped {id : NodeId} {callee arg : Expr} {spread : Bool} {x : AnyNode} {ctx ctx' : Ctx}
      (hid : plan id = some .wrapped) (h : Leaves plan ⟨arg⟩ .plain x ctx') :
      Leaves plan ⟨.call id callee [arg] spread⟩ ctx x ctx'
  | piece {n m x : AnyNode} {ctx ctx₁ ctx' : Ctx} {k : Nat} (hn : n.node.remnant? plan = none)
      (hm : .sub k ctx₁ m ∈ n.node.written ctx) (h : Leaves plan m ctx₁ x ctx') :
      Leaves plan n ctx x ctx'

variable {plan : Plan}

theorem Node.exists_of_remnant? {c : Category} {n : Node c} {r : Remnant}
    (h : n.remnant? plan = some r) : ∃ id callee arg spread,
      (⟨n⟩ : AnyNode) = ⟨.call id callee [arg] spread⟩ ∧ plan id = some r := by
  unfold Node.remnant? at h
  split at h
  · exact ⟨_, _, _, _, rfl, h⟩
  · cases h

namespace Leaves

variable {n m x : AnyNode} {ctx ctx₁ ctx' : Ctx}

theorem trans (h : Leaves plan n ctx m ctx₁) (h' : Leaves plan m ctx₁ x ctx') :
    Leaves plan n ctx x ctx' := by
  induction h with
  | self => exact h'
  | bare hid _ ih => exact .bare hid (ih h')
  | wrapped hid _ ih => exact .wrapped hid (ih h')
  | piece hn hm _ ih => exact .piece hn hm (ih h')

theorem of_piece {k : Nat} (hn : n.node.remnant? plan = none)
    (hm : .sub k ctx' m ∈ n.node.written ctx) : Leaves plan n ctx m ctx' :=
  .piece hn hm (.self m ctx')

theorem mem_nodes (h : Leaves plan n ctx x ctx') : x ∈ n.nodes := by
  have harg : ∀ {id callee arg spread}, (⟨arg⟩ : AnyNode) ∈
      (⟨.call id callee [arg] spread⟩ : AnyNode).children := by
    intro id callee arg spread
    simp [AnyNode.children, Node.children]
  induction h with
  | self n => exact n.self_mem_nodes
  | bare _ _ ih => exact mem_nodes_of_child harg ih
  | wrapped _ _ ih => exact mem_nodes_of_child harg ih
  | piece _ hm _ ih => exact Node.mem_nodes_of_piece hm ih

end Leaves

/-! ## Every slot of the pruned tree -/

theorem AnyNode.exists_leaves_self (plan : Plan) (n : AnyNode) (ctx : Ctx) :
    ∃ e, Leaves plan n ctx e ctx ∧ e.prune plan = n.prune plan ∧
      e.node.remnant? plan ≠ some .bare := by
  induction n using AnyNode.induct with
  | step n ih =>
    by_cases hbare : n.node.remnant? plan = some .bare
    · obtain ⟨id, callee, arg, spread, heq, hid⟩ := Node.exists_of_remnant? hbare
      change n = _ at heq
      subst heq
      obtain ⟨e, hleaves, hprune, he⟩ := ih ⟨arg⟩ (by simp [AnyNode.children, Node.children])
      refine ⟨e, .bare hid hleaves, ?_, he⟩
      rw [hprune]
      simp [AnyNode.prune, Node.prune, hid]
    · exact ⟨n, .self n ctx, rfl, hbare⟩

theorem Node.eq_funcType_of_prune {type : Expr} {id : NodeId} {params results : List (Node .field)}
    (h : type.prune plan = .funcType id params results) (hbare : type.remnant? plan ≠ some .bare) :
    ∃ ps rs, type = .funcType id ps rs ∧ params = ps.map (·.prune plan) ∧
      results = rs.map (·.prune plan) := by
  cases type
  case funcType id' ps rs =>
    simp only [Node.prune, Node.funcType.injEq] at h
    obtain ⟨rfl, rfl, rfl⟩ := h
    exact ⟨ps, rs, rfl, rfl, rfl⟩
  case call id' callee args spread =>
    rcases args with _ | ⟨arg, _ | ⟨b, args⟩⟩
    · simp [Node.prune] at h
    · simp only [Node.remnant?] at hbare
      cases hid : plan id' with
      | none => simp [Node.prune, hid] at h
      | some r => cases r <;> simp_all [Node.prune]
    · simp [Node.prune] at h
  all_goals simp [Node.prune] at h

theorem Node.exists_leaves_funcType {type : Expr} {id : NodeId} {params results : List (Node .field)}
    (h : type.prune plan = .funcType id params results) (ctx : Ctx) :
    ∃ ps rs, Leaves plan ⟨type⟩ ctx ⟨.funcType id ps rs⟩ ctx ∧
      params = ps.map (·.prune plan) ∧ results = rs.map (·.prune plan) := by
  obtain ⟨⟨e⟩, hleaves, hprune, he⟩ := AnyNode.exists_leaves_self plan ⟨type⟩ ctx
  have hc := congrArg AnyNode.category hprune
  simp only [AnyNode.prune] at hc
  subst hc
  simp only [AnyNode.prune, h, AnyNode.mk.injEq, heq_eq_eq, true_and] at hprune
  obtain ⟨ps, rs, rfl, hps, hrs⟩ := Node.eq_funcType_of_prune hprune he
  exact ⟨ps, rs, hleaves, hps, hrs⟩

theorem Node.exists_leaves_of_method {fid : NodeId} {name : Ident} {names : List Ident}
    {type : Expr} {id : NodeId} {params results : List (Node .field)}
    (h : type.prune plan = .funcType id params results) {g' : Node .field}
    (hg' : g' ∈ params ++ results) :
    ∃ g m, .sub 0 .plain m ∈ Piece.method (.field fid (name :: names) type) ∧
      Leaves plan m .plain ⟨g⟩ .plain ∧ g.prune plan = g' := by
  cases htype : type.isFuncType with
  | true =>
    cases type <;> simp [Node.isFuncType] at htype
    case funcType id' ps rs =>
      simp only [Node.prune, Node.funcType.injEq] at h
      obtain ⟨-, rfl, rfl⟩ := h
      rw [← List.map_append, List.mem_map] at hg'
      obtain ⟨g, hg, rfl⟩ := hg'
      refine ⟨g, ⟨g⟩, ?_, .self _ _, rfl⟩
      simpa [Piece.method] using hg
  | false =>
    obtain ⟨ps, rs, hleaves, rfl, rfl⟩ := Node.exists_leaves_funcType h .plain
    rw [← List.map_append, List.mem_map] at hg'
    obtain ⟨g, hg, rfl⟩ := hg'
    refine ⟨g, ⟨.field fid (name :: names) type⟩, ?_, ?_, rfl⟩
    · rw [Piece.method_eq _ _ _ (Or.inr htype)]
      exact List.mem_singleton_self _
    · have htype' : .sub 0 .plain ⟨type⟩ ∈ (Node.field fid (name :: names) type).written .plain := by
        simp [Node.pieces]
      have hg' : .sub 0 .plain ⟨g⟩ ∈ (Node.funcType id ps rs).written .plain := by
        simpa [Node.pieces] using hg
      exact .piece rfl htype' (hleaves.trans (.of_piece rfl hg'))

theorem AnyNode.exists_leaves_of_piece {n m' : AnyNode} {ctx ctx' : Ctx} {k : Nat}
    (hn : n.node.remnant? plan = none) (hm' : .sub k ctx' m' ∈ (n.prune plan).node.written ctx) :
    ∃ m, Leaves plan n ctx m ctx' ∧ m.prune plan = m' := by
  have hmap : n.node.MethodTypesStay plan → ∃ m, Leaves plan n ctx m ctx' ∧ m.prune plan = m' := by
    intro hstay
    simp only [AnyNode.prune] at hm'
    rw [n.node.written_prune plan ctx hn hstay] at hm'
    obtain ⟨p, hp, hpm⟩ := List.mem_map.mp hm'
    cases p <;> simp only [Piece.prune, reduceCtorEq, Piece.sub.injEq] at hpm
    obtain ⟨rfl, rfl, rfl⟩ := hpm
    exact ⟨_, .of_piece hn hp, rfl⟩
  obtain ⟨n⟩ := n
  cases n
  case interfaceType id methods =>
    simp only [AnyNode.prune, Node.prune] at hm'
    obtain ⟨f', hf', hmf⟩ := Node.sub_mem_interfaceType.mp hm'
    obtain ⟨f, hf, rfl⟩ := List.mem_map.mp hf'
    obtain ⟨fid, names, type, rfl⟩ : ∃ fid names type, f = .field fid names type := by
      cases f
      exact ⟨_, _, _, rfl⟩
    have hshow : ∀ {m : AnyNode}, .sub k ctx' m ∈ Piece.method (.field fid names type) →
        Leaves plan ⟨.interfaceType id methods⟩ ctx m ctx' :=
      fun h => .of_piece hn (Node.sub_mem_interfaceType.mpr ⟨_, hf, h⟩)
    rw [Node.prune] at hmf
    by_cases hplain : names = [] ∨ (type.prune plan).isFuncType = false
    · rw [Piece.method_eq _ _ _ hplain, List.mem_singleton, Piece.sub_eq_child] at hmf
      obtain ⟨rfl, rfl, rfl⟩ := hmf
      refine ⟨⟨.field fid names type⟩, hshow ?_, by simp [AnyNode.prune, Node.prune]⟩
      have htype : type.isFuncType = true → (type.prune plan).isFuncType = true :=
        Node.isFuncType_prune
      rw [Piece.method_eq _ _ _ (hplain.imp_right (by simpa using mt htype))]
      exact List.mem_singleton_self _
    · rw [not_or, Bool.not_eq_false] at hplain
      obtain ⟨hnames, htype⟩ := hplain
      obtain ⟨name, ns, rfl⟩ := List.exists_cons_of_ne_nil hnames
      cases hprune : type.prune plan <;> simp [hprune, Node.isFuncType] at htype
      simp only [hprune, Piece.method, List.mem_cons, reduceCtorEq, Piece.sub_mem_paramsAndResults,
        false_or] at hmf
      obtain ⟨rfl, rfl, g', hg', rfl⟩ := hmf
      obtain ⟨g, m, hm, hg, rfl⟩ := Node.exists_leaves_of_method hprune hg'
      exact ⟨⟨g⟩, (hshow hm).trans hg, rfl⟩
  all_goals exact hmap trivial

theorem Shows.exists_leaves {n x' : AnyNode} {ctx ctx' : Ctx}
    (h : Shows (n.prune plan) ctx x' ctx') :
    ∃ x, Leaves plan n ctx x ctx' ∧ x.prune plan = x' ∧ x.node.remnant? plan ≠ some .bare := by
  generalize hn' : n.prune plan = n' at h
  induction h generalizing n with
  | self n' ctx =>
    obtain ⟨e, hleaves, hprune, he⟩ := n.exists_leaves_self plan ctx
    exact ⟨e, hleaves, hprune.trans hn', he⟩
  | @piece n' m' x' ctx ctx₁ ctx' k hm h ih =>
    obtain ⟨e, hleaves, hprune, he⟩ := n.exists_leaves_self plan ctx
    rw [← hn', ← hprune] at hm
    have hpiece : ∃ m, Leaves plan e ctx m ctx₁ ∧ m.prune plan = m' := by
      cases hr : e.node.remnant? plan with
      | none => exact exists_leaves_of_piece hr hm
      | some r =>
        obtain ⟨id, callee, arg, spread, heq, hid⟩ := Node.exists_of_remnant? hr
        change e = _ at heq
        subst heq
        cases r with
        | bare => exact (he hr).elim
        | wrapped =>
          simp [AnyNode.prune, Node.prune, hid, Node.pieces] at hm
          obtain ⟨-, rfl, rfl⟩ := hm
          exact ⟨⟨arg⟩, .wrapped hid (.self _ _), rfl⟩
    obtain ⟨m, hm, hmm⟩ := hpiece
    obtain ⟨x, hx, hxx, hxb⟩ := ih hmm
    exact ⟨x, (hleaves.trans hm).trans hx, hxx, hxb⟩

/-! ## Nodes that are left -/

/-- The node is not inside the callee of a conversion that is taken out. -/
def AnyNode.OutsideCallees (plan : Plan) (root x : AnyNode) : Prop :=
  ∀ id callee arg spread, ⟨.call id callee [arg] spread⟩ ∈ root.nodes → plan id ≠ none →
    x ∉ AnyNode.nodes ⟨callee⟩

theorem AnyNode.OutsideCallees.arg {id : NodeId} {callee arg : Expr} {spread : Bool} {x : AnyNode}
    (hids : DistinctIds ⟨.call id callee [arg] spread⟩) (h : OutsideCallees plan ⟨arg⟩ x)
    (hx : x ∈ AnyNode.nodes ⟨arg⟩) : OutsideCallees plan ⟨.call id callee [arg] spread⟩ x := by
  have hchildren : AnyNode.children ⟨.call id callee [arg] spread⟩ = [⟨callee⟩, ⟨arg⟩] := by
    simp [AnyNode.children, Node.children]
  have hcallee : x ∉ AnyNode.nodes ⟨callee⟩ := by
    intro hxc
    have heq := hids.children_eq (by simp [hchildren]) (by simp [hchildren]) hxc hx
    have hnodup := hids.nodup_children
    simp [hchildren, heq] at hnodup
  intro id' callee' arg' spread' hmem hid hx'
  have hxd : x ∈ AnyNode.nodes ⟨.call id' callee' [arg'] spread'⟩ :=
    mem_nodes_of_child (by simp [AnyNode.children, Node.children]) hx'
  rcases mem_nodes_iff.mp hmem with heq | ⟨c, hc, hmem⟩
  · cases heq
    exact hcallee hx'
  · simp only [hchildren, List.mem_cons, List.not_mem_nil, or_false] at hc
    rcases hc with rfl | rfl
    · exact hcallee (mem_nodes_trans hmem hxd)
    · exact h id' callee' arg' spread' hmem hid hx'

theorem Leaves.outsideCallees {n x : AnyNode} {ctx ctx' : Ctx} (h : Leaves plan n ctx x ctx')
    (hids : n.DistinctIds) : OutsideCallees plan n x := by
  induction h with
  | self n ctx =>
    intro id callee arg spread hmem _ hx
    have hchild : ⟨callee⟩ ∈ AnyNode.children ⟨.call id callee [arg] spread⟩ := by
      simp [AnyNode.children, Node.children]
    have heq := nodes_antisymm hmem (mem_nodes_of_child hchild hx)
    exact not_mem_nodes_child hchild (heq ▸ hx)
  | bare _ h ih =>
    exact (ih (hids.child (by simp [AnyNode.children, Node.children]))).arg hids h.mem_nodes
  | wrapped _ h ih =>
    exact (ih (hids.child (by simp [AnyNode.children, Node.children]))).arg hids h.mem_nodes
  | @piece n m x ctx ctx₁ ctx' k hn hm h ih =>
    have hmn : m ∈ n.nodes := Node.mem_nodes_of_piece hm m.self_mem_nodes
    intro id callee arg spread hmem hid hx
    have hxd : x ∈ AnyNode.nodes ⟨.call id callee [arg] spread⟩ :=
      mem_nodes_of_child (by simp [AnyNode.children, Node.children]) hx
    have hne : (⟨.call id callee [arg] spread⟩ : AnyNode) ≠ n := by
      rintro rfl
      exact hid hn
    refine ih (hids.of_mem hmn) id callee arg spread ?_ hid hx
    rcases n.node.cases_of_piece hm with hchild | ⟨-, hmethod⟩
    · exact hids.mem_child hchild hmem hne h.mem_nodes hxd
    · obtain ⟨fid, names, ft, params, results, hf, ht, hg⟩ := hmethod.exists_children
      have hxt := mem_nodes_of_child hg h.mem_nodes
      have hd := hids.mem_child hf hmem hne (mem_nodes_of_child ht hxt) hxd
      have hd' := (hids.child hf).mem_child ht hd (fun he => by cases he) hxt hxd
      exact ((hids.child hf).child ht).mem_child hg hd' (fun he => by cases he) h.mem_nodes hxd

theorem Shows.exists_leaves_of_outsideCallees {root n x : AnyNode} {ctx ctx₁ ctx' : Ctx}
    (h : Shows n ctx x ctx') (hn : n ∈ root.nodes) (hx : OutsideCallees plan root x)
    (hctx : ctx.inHeader = true → ctx₁.inHeader = true) :
    ∃ ctx₁', Leaves plan n ctx₁ x ctx₁' ∧ (ctx'.inHeader = true → ctx₁'.inHeader = true) := by
  have hR : Ctx.Inherited fun c c' => c.inHeader = true → c'.inHeader = true :=
    ⟨fun _ => id, fun h _ => h, fun h _ _ => h⟩
  induction h generalizing ctx₁ with
  | self n ctx => exact ⟨ctx₁, .self _ _, hctx⟩
  | @piece n m x ctx ctx₂ ctx' k hm h ih =>
    have hmn : m ∈ root.nodes := mem_nodes_trans hn (Node.mem_nodes_of_piece hm m.self_mem_nodes)
    cases hr : n.node.remnant? plan with
    | none =>
      obtain ⟨ctx₂', hm', hctx₂⟩ := Node.exists_slot hR hctx hm
      obtain ⟨ctx₁', hleaves, hctx'⟩ := ih hmn hx hctx₂
      exact ⟨ctx₁', .piece hr hm' hleaves, hctx'⟩
    | some r =>
      obtain ⟨id, callee, arg, spread, heq, hid⟩ := Node.exists_of_remnant? hr
      change n = _ at heq
      subst heq
      -- The path does not lead into the callee.
      have harg : m = ⟨arg⟩ ∧ ctx₂ = .plain := by
        simp [Node.pieces] at hm
        rcases hm with ⟨-, -, rfl⟩ | ⟨-, hctx₂, rfl⟩
        · exact (hx id callee arg spread hn (by simp [hid]) h.mem_nodes).elim
        · exact ⟨rfl, hctx₂⟩
      obtain ⟨rfl, rfl⟩ := harg
      cases r with
      | bare =>
        have hplain : Ctx.plain.inHeader = true → ctx₁.inHeader = true := fun h => by cases h
        obtain ⟨ctx₁', hleaves, hctx'⟩ := ih hmn hx hplain
        exact ⟨ctx₁', .bare hid hleaves, hctx'⟩
      | wrapped =>
        have hplain : Ctx.plain.inHeader = true → Ctx.plain.inHeader = true := fun h => h
        obtain ⟨ctx₁', hleaves, hctx'⟩ := ih hmn hx hplain
        exact ⟨ctx₁', .wrapped hid hleaves, hctx'⟩

theorem Leaves.exists_field {type : Expr} {id : NodeId} {params results : List (Node .field)}
    (htype : type.prune plan = .funcType id params results) {x : AnyNode} {ctx ctx' : Ctx}
    (h : Leaves plan ⟨type⟩ ctx x ctx') (hctx : ctx.inHeader = false) (hctx' : ctx'.inHeader = true) :
    ∃ g, g.prune plan ∈ params ++ results ∧ ⟨g⟩ ∈ AnyNode.nodes ⟨type⟩ ∧
      Leaves plan ⟨g⟩ .plain x ctx' := by
  generalize hn : (⟨type⟩ : AnyNode) = n at h
  induction h generalizing type with
  | self n ctx => simp [hctx] at hctx'
  | @bare id' callee arg spread x ctx ctx' hid h ih =>
    cases hn
    simp only [Node.prune, hid] at htype
    obtain ⟨g, hg, hmem, hleaves⟩ := ih htype hctx hctx' rfl
    exact ⟨g, hg, mem_nodes_of_child (by simp [AnyNode.children, Node.children]) hmem, hleaves⟩
  | wrapped hid =>
    cases hn
    simp [Node.prune, hid] at htype
  | @piece n m x ctx ctx₁ ctx' k hr hm h ih =>
    subst hn
    obtain ⟨ps, rs, rfl, rfl, rfl⟩ := Node.eq_funcType_of_prune htype (by simp [hr])
    have hmem := Node.mem_nodes_of_piece hm m.self_mem_nodes
    simp [Node.pieces] at hm
    obtain ⟨-, rfl, g, hg, rfl⟩ := hm
    refine ⟨g, ?_, hmem, h⟩
    rw [← List.map_append]
    exact List.mem_map_of_mem (List.mem_append.mpr hg)

theorem Leaves.exists_in_method {f : Node .field} {m x : AnyNode} {ctx ctx' : Ctx} {k : Nat}
    (hm : .sub k ctx m ∈ Piece.method f) (h : Leaves plan m ctx x ctx')
    (hctx' : ctx'.inHeader = true) :
    ∃ k' y, .sub k' .plain (y.prune plan) ∈ Piece.method (f.prune plan) ∧ y ∈ AnyNode.nodes ⟨f⟩ ∧
      Leaves plan y .plain x ctx' := by
  by_cases hstay : ∀ id name names type, f = .field id (name :: names) type →
      (type.prune plan).isFuncType = true → type.isFuncType = true
  · obtain ⟨-, rfl, -⟩ := Piece.cases_of_sub_mem_method hm
    refine ⟨k, m, ?_, ?_, h⟩
    · rw [← Piece.map_prune_method plan f hstay]
      exact List.mem_map.mpr ⟨_, hm, rfl⟩
    · exact (Piece.flatMap_method f).subset (List.mem_flatMap.mpr ⟨_, hm, m.self_mem_nodes⟩)
  · push Not at hstay
    obtain ⟨id, name, names, type, rfl, htype, hne⟩ := hstay
    rw [Piece.method_eq _ _ _ (Or.inr (by simpa using hne)), List.mem_singleton,
      Piece.sub_eq_child] at hm
    obtain ⟨rfl, rfl, rfl⟩ := hm
    cases hprune : type.prune plan <;> simp [hprune, Node.isFuncType] at htype
    case funcType ft params results =>
    cases h with
    | self => cases hctx'
    | piece _ hm h =>
      simp [Node.pieces] at hm
      obtain ⟨-, rfl, rfl⟩ := hm
      obtain ⟨g, hg, hmem, hleaves⟩ := h.exists_field hprune rfl hctx'
      refine ⟨0, ⟨g⟩, ?_, ?_, hleaves⟩
      · simpa [Node.prune, hprune, Piece.method, AnyNode.prune] using hg
      · exact mem_nodes_of_child (by simp [AnyNode.children, Node.children]) hmem

theorem Leaves.shows_prune {n x : AnyNode} {ctx ctx' : Ctx} (h : Leaves plan n ctx x ctx')
    (hctx' : ctx'.inHeader = true) : Shows (n.prune plan) ctx (x.prune plan) ctx' := by
  -- The induction is on the size and not on `h`: below an interface, what `h` passes through is no
  -- node of the pruned tree, and the way goes on at a node inside the field.
  induction hsize : sizeOf n.node using Nat.strongRecOn generalizing n ctx with
  | _ size ih =>
    subst hsize
    cases h with
    | self => exact .self _ _
    | @bare id callee arg spread _ _ _ hid h =>
      have hprune : AnyNode.prune plan ⟨.call id callee [arg] spread⟩ = ⟨arg.prune plan⟩ := by
        simp [AnyNode.prune, Node.prune, hid]
      rw [hprune]
      exact ih _ (by simp; omega) h rfl
    | @wrapped id callee arg spread _ _ _ hid h =>
      have hprune : AnyNode.prune plan ⟨.call id callee [arg] spread⟩ = ⟨.paren id (arg.prune plan)⟩ := by
        simp [AnyNode.prune, Node.prune, hid]
      rw [hprune]
      have harg : .sub 0 .plain ⟨arg.prune plan⟩ ∈ (Node.paren id (arg.prune plan)).written ctx := by
        simp [Node.pieces]
      exact .piece harg (ih _ (by simp; omega) h rfl)
    | @piece _ m _ _ ctx₁ _ k hr hm h =>
      have hlt : sizeOf m.node < sizeOf n.node := n.node.smaller_pieces _ ctx _ hm _ _ _ rfl
      have hgo : .sub k ctx₁ (m.prune plan) ∈ (n.prune plan).node.written ctx →
          Shows (n.prune plan) ctx (x.prune plan) ctx' := fun hm' => .piece hm' (ih _ hlt h rfl)
      have hmap : n.node.MethodTypesStay plan → Shows (n.prune plan) ctx (x.prune plan) ctx' := by
        intro hstay
        apply hgo
        simp only [AnyNode.prune]
        rw [n.node.written_prune plan ctx hr hstay]
        exact List.mem_map.mpr ⟨_, hm, rfl⟩
      obtain ⟨n⟩ := n
      cases n
      case interfaceType id methods =>
        obtain ⟨f, hf, hmf⟩ := Node.sub_mem_interfaceType.mp hm
        obtain ⟨k', y, hy, hyf, hleaves⟩ := h.exists_in_method hmf hctx'
        have hfield : ⟨f⟩ ∈ AnyNode.children ⟨.interfaceType id methods⟩ := by
          simpa [AnyNode.children, Node.children] using hf
        have hlt : sizeOf y.node < sizeOf (Node.interfaceType id methods) := by
          have hflt := sizeOf_lt_of_mem_children hfield
          rcases sizeOf_le_of_mem_nodes hyf with rfl | hylt
          · exact hflt
          · exact Nat.lt_trans hylt hflt
        refine .piece (k := k') ?_ (ih _ hlt hleaves rfl)
        simp only [AnyNode.prune, Node.prune]
        exact Node.sub_mem_interfaceType.mpr ⟨_, List.mem_map_of_mem hf, hy⟩
      all_goals exact hmap trivial

end ConvSweep
