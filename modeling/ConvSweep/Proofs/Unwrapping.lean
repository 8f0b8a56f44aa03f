import ConvSweep.Proofs.Fixpoint
import ConvSweep.Proofs.LeftText
import ConvSweep.Proofs.Verdict

/-! # Taking wrappers out of a tree

A wrapper is a conversion by a name around another call. A tree without its wrappers has the same nodes
otherwise, and a node that stays shows the same face and is as untyped as before.
-/

namespace ConvSweep

open AnyNode Detect

/-- Whatever goes is a conversion of a call by a name, and nothing else of it than the call stays. -/
def Plan.Unwraps (plan : Plan) (n : AnyNode) : Prop :=
  ∀ id callee arg spread, ⟨.call id callee [arg] spread⟩ ∈ n.nodes → plan id ≠ none →
    plan id = some .bare ∧ (∃ w name, callee = .ident w name) ∧ ∃ c f a s, arg = .call c f [a] s

variable {plan : Plan}

theorem Node.isCall_of_goes {e : Expr} (h : e.remnant? plan ≠ none) : e.isCall = true := by
  obtain ⟨id, callee, arg, spread, rfl, -⟩ := exists_of_goes h
  rfl

namespace Plan.Unwraps

variable {n m : AnyNode}

theorem of_mem (h : plan.Unwraps n) (hm : m ∈ n.nodes) : plan.Unwraps m :=
  fun id callee arg spread hmem => h id callee arg spread (mem_nodes_trans hm hmem)

theorem child (h : plan.Unwraps n) (hm : m ∈ n.children) : plan.Unwraps m :=
  h.of_mem (child_mem_nodes hm)

theorem stays_or_wrapper {c : Category} {n : Node c} (h : plan.Unwraps ⟨n⟩) :
    n.remnant? plan = none ∨ ∃ id w name arg spread, plan id = some .bare ∧
      (⟨n⟩ : AnyNode) = ⟨.call id (.ident w name) [arg] spread⟩ ∧
      AnyNode.prune plan ⟨n⟩ = ⟨arg.prune plan⟩ := by
  cases hr : n.remnant? plan with
  | none => exact Or.inl rfl
  | some r =>
    obtain ⟨id, callee, arg, spread, heq, hid⟩ := Node.exists_of_remnant? hr
    cases heq
    obtain ⟨hbare, ⟨w, name, rfl⟩, -⟩ := h id callee arg spread (self_mem_nodes _) (by simp [hid])
    refine Or.inr ⟨id, w, name, arg, spread, hbare, rfl, ?_⟩
    simp only [AnyNode.prune, Node.prune, hbare]

theorem prune_residue {e : Expr} (h : plan.Unwraps ⟨e⟩) :
    e.prune plan = (e.residue plan).prune plan := by
  induction e using Node.residue_induct plan with
  | stays e hr => rw [Node.residue_eq_self hr]
  | goes id callee arg spread hid ih =>
    obtain ⟨hbare, -, -⟩ := h id callee arg spread (self_mem_nodes _) hid
    rw [Node.residue_call hid, ← ih (h.child (arg_mem_children ..))]
    simp only [Node.prune, hbare]

theorem id_prune_eq {e : Expr} (h : plan.Unwraps ⟨e⟩) : (e.prune plan).id = (e.residue plan).id := by
  rw [h.prune_residue, Node.id_prune (Node.remnant?_residue plan e)]

theorem residue_eq_call {e : Expr} (h : plan.Unwraps ⟨e⟩) (hgoes : e.remnant? plan ≠ none) :
    ∃ c f a s, e.residue plan = .call c f [a] s := by
  induction e using Node.residue_induct plan with
  | stays e hr => exact (hgoes hr).elim
  | goes id callee arg spread hid ih =>
    obtain ⟨-, -, c, f, a, s, rfl⟩ := h id callee arg spread (self_mem_nodes _) hid
    rw [Node.residue_call hid]
    by_cases hr : (Node.call c f [a] s).remnant? plan = none
    · exact ⟨c, f, a, s, Node.residue_eq_self hr⟩
    · exact ih (h.child (arg_mem_children ..)) hr

theorem prune_eq_call {e : Expr} (h : plan.Unwraps ⟨e⟩) (hgoes : e.remnant? plan ≠ none) :
    ∃ c f a s, e.residue plan = .call c f [a] s ∧
      e.prune plan = .call c (f.prune plan) [a.prune plan] s := by
  obtain ⟨c, f, a, s, heq⟩ := h.residue_eq_call hgoes
  have hstays := Node.remnant?_residue plan e
  rw [heq] at hstays
  refine ⟨c, f, a, s, heq, ?_⟩
  rw [h.prune_residue, heq, Node.prune_call hstays]
  rfl

end Plan.Unwraps

/-! ## Nodes and visits -/

namespace Plan.Unwraps

@[elab_as_elim]
theorem induct {motive : (n : AnyNode) → plan.Unwraps n → Prop}
    (stays : ∀ (n : AnyNode) (h : plan.Unwraps n), n.node.remnant? plan = none →
      (∀ m (hm : m ∈ n.children), motive m (h.child hm)) → motive n h)
    (wrapper : ∀ id w name arg spread (h : plan.Unwraps ⟨.call id (.ident w name) [arg] spread⟩),
      plan id = some .bare → motive ⟨arg⟩ (h.child (arg_mem_children ..)) →
      motive ⟨.call id (.ident w name) [arg] spread⟩ h) (n : AnyNode) (h : plan.Unwraps n) :
    motive n h := by
  induction n using AnyNode.induct with
  | step n ih =>
    rcases h.stays_or_wrapper (n := n.node) with hr | ⟨id, w, name, arg, spread, hid, heq, -⟩
    · exact stays n h hr fun m hm => ih m hm (h.child hm)
    · change n = _ at heq
      subst heq
      exact wrapper id w name arg spread h hid (ih ⟨arg⟩ (arg_mem_children ..) _)

variable {n : AnyNode}

theorem prune_wrapper {id : NodeId} (hid : plan id = some .bare) (callee arg : Expr) (spread : Bool) :
    AnyNode.prune plan ⟨.call id callee [arg] spread⟩ = ⟨arg.prune plan⟩ := by
  simp only [AnyNode.prune, Node.prune, hid]

theorem ids_sublist (h : plan.Unwraps n) : (n.prune plan).ids.Sublist n.ids := by
  induction n, h using Plan.Unwraps.induct with
  | stays n _ hr ih =>
    have hid : (n.prune plan).id = n.id := Node.id_prune hr
    rw [ids_eq, ids_eq n, AnyNode.children_prune hr, List.flatMap_map, hid]
    exact (List.Sublist.flatMap_right _ ih).cons_cons _
  | wrapper id w name arg spread _ hid ih =>
    rw [prune_wrapper hid, ids_eq ⟨.call id (.ident w name) [arg] spread⟩]
    refine (ih.trans ?_).cons _
    simp [AnyNode.children, Node.children]

theorem exists_of_mem_prune (h : plan.Unwraps n) {y : AnyNode} (hy : y ∈ (n.prune plan).nodes) :
    ∃ x ∈ n.nodes, x.node.remnant? plan = none ∧ x.prune plan = y := by
  induction n, h using Plan.Unwraps.induct with
  | stays n _ hr ih =>
    rcases mem_nodes_iff.mp hy with rfl | ⟨m', hm', hy⟩
    · exact ⟨n, n.self_mem_nodes, hr, rfl⟩
    · rw [AnyNode.children_prune hr] at hm'
      obtain ⟨m, hm, rfl⟩ := List.mem_map.mp hm'
      obtain ⟨x, hx, hxy⟩ := ih m hm hy
      exact ⟨x, mem_nodes_of_child hm hx, hxy⟩
  | wrapper id w name arg spread _ hid ih =>
    rw [prune_wrapper hid] at hy
    obtain ⟨x, hx, hxy⟩ := ih hy
    exact ⟨x, mem_nodes_of_child (arg_mem_children ..) hx, hxy⟩

theorem distinctIds (h : plan.Unwraps n) (hids : n.DistinctIds) : (n.prune plan).DistinctIds :=
  h.ids_sublist.nodup hids

theorem hasTokens (h : plan.Unwraps n) (htok : n.HasTokens) : (n.prune plan).HasTokens := by
  intro y hy
  obtain ⟨⟨x⟩, hx, hr, rfl⟩ := h.exists_of_mem_prune hy
  have hword : (x.prune plan).word? = x.word? := by
    cases x
    case call id callee args spread => rw [Node.prune_call hr]; rfl
    all_goals simp only [Node.prune, Node.word?]
  intro s hs
  exact htok ⟨x⟩ hx s (hword ▸ hs)

theorem mem_visits_prune (h : plan.Unwraps n) {as : List AnyNode} {v : Visit}
    (hv : v ∈ n.visits as) (hcall : v.node.node.isCall = true) :
    v.prune plan ∈ (n.prune plan).visits (pruneAncestors plan as) := by
  induction n, h using Plan.Unwraps.induct generalizing as with
  | stays n _ hr ih =>
    rw [visits_eq, List.mem_cons, List.mem_flatMap] at hv
    rcases hv with rfl | ⟨m, hm, hv⟩
    · rw [visits_eq]
      exact List.mem_cons_self
    · have hcons : pruneAncestors plan (n :: as) = n.prune plan :: pruneAncestors plan as := by
        simp [pruneAncestors, hr]
      refine mem_visits_of_child (prune_mem_children hr hm) ?_
      rw [← hcons]
      exact ih m hm hv
  | wrapper id w name arg spread _ hid ih =>
    have hskip : pruneAncestors plan (⟨.call id (.ident w name) [arg] spread⟩ :: as) =
        pruneAncestors plan as := by
      simp [pruneAncestors, Node.remnant?, hid]
    rw [visits_eq, List.mem_cons, List.mem_flatMap] at hv
    rcases hv with rfl | ⟨m, hm, hv⟩
    · rw [visits_eq]
      exact List.mem_cons_self
    · simp [AnyNode.children, Node.children] at hm
      rcases hm with rfl | rfl
      · -- The name is no call.
        rw [visits_eq] at hv
        simp [AnyNode.children, Node.children] at hv
        subst hv
        simp [Node.isCall] at hcall
      · rw [prune_wrapper hid, ← hskip]
        exact ih hv

theorem mem_nodes_prune (h : plan.Unwraps n) {x : AnyNode} (hx : x ∈ n.nodes)
    (hcall : x.node.isCall = true) : x.prune plan ∈ (n.prune plan).nodes := by
  obtain ⟨as, hv⟩ := exists_visit [] hx
  exact mem_nodes_of_visit (h.mem_visits_prune hv hcall)

theorem methodTypesStay (h : plan.Unwraps n) : n.node.MethodTypesStay plan := by
  obtain ⟨n⟩ := n
  cases n <;> try trivial
  case interfaceType id methods =>
    intro fid name names type hf htype
    have hmem : ⟨type⟩ ∈ AnyNode.nodes ⟨.interfaceType id methods⟩ := by
      refine mem_nodes_of_child (m := ⟨.field fid (name :: names) type⟩) ?_ (child_mem_nodes ?_)
      · simpa [AnyNode.children, Node.children] using hf
      · simp [AnyNode.children, Node.children]
    by_cases hr : type.remnant? plan = none
    · cases type
      case call c f args s => simp [Node.prune_call hr, Node.isFuncType] at htype
      all_goals first | rfl | simp [Node.prune, Node.isFuncType] at htype
    · obtain ⟨c, f, a, s, -, hcall⟩ := (h.of_mem hmem).prune_eq_call hr
      simp [hcall, Node.isFuncType] at htype

theorem written_prune (h : plan.Unwraps n) (hr : n.node.remnant? plan = none) (ctx : Ctx) :
    (n.prune plan).node.written ctx = (n.node.written ctx).map (Piece.prune plan) :=
  Node.written_prune plan ctx n.node hr h.methodTypesStay

end Plan.Unwraps

/-! ## Parentheses and names -/

namespace Plan.Unwraps

theorem exists_prune_call {id : NodeId} {callee : Expr} {args : List Expr} {spread : Bool}
    (h : plan.Unwraps ⟨.call id callee args spread⟩) :
    ∃ c f as s, (Node.call id callee args spread).prune plan = .call c f as s := by
  by_cases hr : (Node.call id callee args spread).remnant? plan = none
  · exact ⟨_, _, _, _, Node.prune_call hr⟩
  · obtain ⟨c, f, a, s, -, hprune⟩ := h.prune_eq_call hr
    exact ⟨_, _, _, _, hprune⟩

theorem unparen_prune {e : Expr} (h : plan.Unwraps ⟨e⟩) :
    (e.prune plan).unparen = e.unparen.prune plan := by
  generalize hn : (⟨e⟩ : AnyNode) = n at h
  induction n using AnyNode.induct generalizing e with
  | step n ih =>
    subst hn
    cases e
    case paren id x =>
      rw [Node.prune, Node.unparen, Node.unparen]
      exact ih ⟨x⟩ (paren_mem_children ..) rfl (h.child (paren_mem_children ..))
    case call id callee args spread =>
      obtain ⟨c, f, as, s, hprune⟩ := h.exists_prune_call
      simp [Node.unparen, hprune]
    all_goals simp only [Node.prune, Node.unparen]

theorem isTypeName_prune {e : Expr} (h : plan.Unwraps ⟨e⟩) :
    (e.prune plan).isTypeName = e.isTypeName := by
  have hu := h.of_mem e.unparen_mem_nodes
  unfold Node.isTypeName
  rw [h.unparen_prune]
  cases he : e.unparen
  case call id callee args spread =>
    rw [he] at hu
    obtain ⟨c, f, as, s, hprune⟩ := hu.exists_prune_call
    rw [hprune]
  all_goals simp only [Node.prune]

end Plan.Unwraps

/-! ## Faces -/

/-- Without the wrappers, an expression shows the same face, if what stands in for nodes stands in for
what is left of them and each wrapper shows the face of what it leaves. `P` says which expressions the
expression may show. -/
theorem Plan.Unwraps.seen_face_prune (inHeader : Bool) {shown shown' : NodeId → Option Face}
    {P : Expr → Prop}
    (hchild : ∀ e : Expr, P e → shown e.id = none → ∀ x : Expr, ⟨x⟩ ∈ AnyNode.children ⟨e⟩ → P x)
    (hshown : ∀ e : Expr, P e → shown' (e.prune plan).id = shown e.id)
    (hwrapper : ∀ e : Expr, P e → e.remnant? plan ≠ none → shown e.id = none →
      ((e.prune plan).face shown').seen inHeader = (e.face shown).seen inHeader)
    {e : Expr} (h : plan.Unwraps ⟨e⟩) (he : P e) :
    ((e.prune plan).face shown').seen inHeader = (e.face shown).seen inHeader := by
  generalize hn : (⟨e⟩ : AnyNode) = n at h
  induction n using AnyNode.induct generalizing e with
  | step n ih =>
    subst hn
    cases hid : shown e.id with
    | some f =>
      have hid' : shown' (e.prune plan).id = some f := (hshown e he).trans hid
      unfold Node.face
      simp [hid, hid']
    | none =>
      by_cases hr : e.remnant? plan = none
      · have hid' : shown' (e.prune plan).id = none := (hshown e he).trans hid
        rw [Node.prune_eq_mapChildren hr] at hid' ⊢
        rw [Node.id_mapChildren] at hid'
        refine Node.seen_face_mapChildren inHeader hid hid'
          (fun x hx => ih ⟨x⟩ hx (hchild e he hid x hx) rfl (h.child hx)) ?_
        rintro id t elts rfl
        have hmem : ⟨t⟩ ∈ AnyNode.children ⟨.composite id (some t) elts⟩ := by
          simp [AnyNode.children, Node.children]
        exact (h.child hmem).isTypeName_prune
      · exact hwrapper e he hr hid

/-! ## Untyped values -/

/-- The checker knows the same of a node and all below it. -/
structure TypeInfo.AgreesOn (info info' : TypeInfo) (n : AnyNode) : Prop where
  types : ∀ x ∈ n.nodes, info'.typeOf x.id = info.typeOf x.id
  objects : ∀ x ∈ n.nodes, ∀ id ∈ x.node.named?, info'.objectOf id = info.objectOf id

theorem TypeInfo.AgreesOn.of_mem {info info' : TypeInfo} {n m : AnyNode}
    (h : info.AgreesOn info' n) (hm : m ∈ n.nodes) : info.AgreesOn info' m where
  types x hx := h.types x (mem_nodes_trans hm hx)
  objects x hx := h.objects x (mem_nodes_trans hm hx)

namespace Plan.Unwraps

variable {info info' : TypeInfo}

theorem builtinOf_prune {e : Expr} (h : plan.Unwraps ⟨e⟩)
    (hinfo : info.AgreesOn info' ⟨e.prune plan⟩) :
    info.builtinOf (e.prune plan) = info'.builtinOf e := by
  have hu := h.of_mem e.unparen_mem_nodes
  have hmem := (e.prune plan).unparen_mem_nodes
  unfold TypeInfo.builtinOf
  rw [h.unparen_prune] at hmem ⊢
  cases he : e.unparen
  case ident id name =>
    rw [he, Node.prune] at hmem
    simp only [Node.prune, hinfo.objects _ hmem id rfl]
  case call id callee args spread =>
    rw [he] at hu
    obtain ⟨c, f, as, s, hprune⟩ := hu.exists_prune_call
    rw [hprune]
  all_goals simp only [Node.prune]

theorem isUntypedPermissive_prune {c : Category} {n : Node c} (h : plan.Unwraps ⟨n⟩)
    (hinfo : info.AgreesOn info' ⟨n.prune plan⟩)
    (hwrapper : ∀ e : Expr, ⟨e⟩ ∈ AnyNode.nodes ⟨n⟩ → e.remnant? plan ≠ none →
      (e.prune plan).isUntypedPermissive info = false ∧ e.isUntypedPermissive info' = false) :
    (n.prune plan).isUntypedPermissive info = n.isUntypedPermissive info' := by
  generalize hm : (⟨n⟩ : AnyNode) = m at h
  induction m using AnyNode.induct generalizing c n with
  | step m ih =>
    subst hm
    by_cases hr : n.remnant? plan = none
    · have hsub : ∀ x : Expr, ⟨x⟩ ∈ AnyNode.children ⟨n⟩ →
          info.AgreesOn info' ⟨x.prune plan⟩ ∧ plan.Unwraps ⟨x⟩ ∧
            (x.prune plan).isUntypedPermissive info = x.isUntypedPermissive info' := by
        intro x hx
        have hmem := child_mem_nodes (prune_mem_children hr hx)
        exact ⟨hinfo.of_mem hmem, h.child hx, ih ⟨x⟩ hx (hinfo.of_mem hmem)
          (fun e he => hwrapper e (mem_nodes_of_child hx he)) rfl (h.child hx)⟩
      have hname : ∀ id ∈ (n.prune plan).named?, info.isUntypedName id = info'.isUntypedName id := by
        intro id hid
        have hobject : info'.objectOf id = info.objectOf id :=
          hinfo.objects _ (self_mem_nodes _) id hid
        rw [TypeInfo.isUntypedName, TypeInfo.isUntypedName, hobject]
      cases n
      case call id callee args spread =>
        rw [Node.prune_call hr]
        have hbuiltin := (hsub callee (callee_mem_children ..)).2.1.builtinOf_prune
          (hsub callee (callee_mem_children ..)).1
        rcases args with _ | ⟨x, _ | ⟨y, _ | ⟨z, args⟩⟩⟩
        · simp [Node.isUntypedPermissive]
        · have hx := (hsub x (arg_mem_children ..)).2.2
          simp [Node.isUntypedPermissive, hbuiltin, hx]
        · have hx := (hsub x (by simp [AnyNode.children, Node.children])).2.2
          have hy := (hsub y (by simp [AnyNode.children, Node.children])).2.2
          simp [Node.isUntypedPermissive, hbuiltin, hx, hy]
        · simp [Node.isUntypedPermissive]
      case binary | unary | paren =>
        simp [AnyNode.children, Node.children, or_imp, forall_and] at hsub
        simp [Node.prune, Node.isUntypedPermissive, hsub]
      case selector id x sel =>
        have hsel := hname sel.id (by simp [Node.prune, Node.named?])
        simpa [Node.prune, Node.isUntypedPermissive] using hsel
      case ident id name =>
        have hid := hname id (by simp [Node.prune, Node.named?])
        simpa [Node.prune, Node.isUntypedPermissive] using hid
      all_goals simp only [Node.prune, Node.isUntypedPermissive]
    · obtain ⟨r, hr'⟩ := Option.ne_none_iff_exists'.mp hr
      obtain ⟨id, callee, arg, spread, heq, -⟩ := Node.exists_of_remnant? hr'
      cases heq
      obtain ⟨hleft, hgone⟩ := hwrapper _ (self_mem_nodes _) hr
      rw [hleft, hgone]

theorem isUntypedStrict_prune {c : Category} {n : Node c} (h : plan.Unwraps ⟨n⟩)
    (hinfo : info.AgreesOn info' ⟨n.prune plan⟩) :
    (n.prune plan).isUntypedStrict info = n.isUntypedStrict info' := by
  generalize hm : (⟨n⟩ : AnyNode) = m at h
  induction m using AnyNode.induct generalizing c n with
  | step m ih =>
    subst hm
    cases n
    case binary id x op y =>
      have hx : ⟨x⟩ ∈ AnyNode.children ⟨.binary id x op y⟩ := by
        simp [AnyNode.children, Node.children]
      have hr : (Node.binary id x op y).remnant? plan = none := rfl
      have hmem := child_mem_nodes (prune_mem_children hr hx)
      have hsub := ih ⟨x⟩ hx (hinfo.of_mem hmem) rfl (h.child hx)
      simp [Node.prune, Node.isUntypedStrict, hsub]
    case ident id name =>
      have hobject : info'.objectOf id = info.objectOf id :=
        hinfo.objects _ (self_mem_nodes _) id (by simp [Node.prune, Node.named?])
      simp [Node.prune, Node.isUntypedStrict, hobject]
    case call id callee args spread =>
      obtain ⟨c, f, as, s, hprune⟩ := h.exists_prune_call
      rw [hprune, Node.isUntypedStrict, Node.isUntypedStrict] <;> simp
    all_goals simp only [Node.prune, Node.isUntypedStrict]

end Plan.Unwraps

end ConvSweep
