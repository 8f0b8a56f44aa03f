import ConvSweep.Proofs.Unwrapping

/-! # Trials without wrappers

A trial comes to the same verdict when the wrappers around and beside the conversion are gone.
-/

namespace ConvSweep

open AnyNode Detect

variable {plan : Plan}

/-! ## Faces and verdicts -/

theorem Node.face_call {shown : NodeId → Option Face} {id : NodeId} (h : shown id = none)
    (callee : Expr) (args : List Expr) (spread : Bool) :
    (Node.call id callee args spread).face shown =
      ⟨primaryPrec, (callee.face shown).opening, (callee.face shown).exposesComposite⟩ := by
  have hid : shown (Node.call id callee args spread).id = none := h
  rw [Node.face, hid]

/-- A call `t` below `root` that a trial replaces, in a tree whose wrappers go. It is not directly
inside a wrapper, and what a wrapper leaves opens with no operator and has `t` at most in its arguments.
`InHeader` says of the expressions in the header around `t`, if there is one, that they are. There, what
a wrapper leaves shows no composite literal. -/
structure Plan.Targets (plan : Plan) (InHeader : Expr → Prop) (root : AnyNode) (t : Expr) : Prop where
  unwraps : plan.Unwraps root
  ids : root.DistinctIds
  mem : ⟨t⟩ ∈ root.nodes
  call : t.isCall = true
  outer : ∀ id callee spread, ⟨.call id callee [t] spread⟩ ∈ root.nodes → plan id = none
  closed : ∀ e : Expr, ⟨e⟩ ∈ root.nodes → e.remnant? plan ≠ none → ∃ c f as s,
    e.prune plan = .call c f as s ∧ (f.face fun _ => none).opening = none ∧
    (InHeader e → (f.face fun _ => none).exposesComposite = false) ∧
    (t.prune plan).id ∉ AnyNode.ids ⟨f⟩
  below : ∀ e x : Expr, InHeader e → ⟨x⟩ ∈ AnyNode.children ⟨e⟩ → InHeader x
  path : ∀ id x, ⟨.paren id x⟩ ∈ root.nodes → ⟨t⟩ ∈ AnyNode.nodes ⟨x⟩ → x = t ∨ InHeader x

/-- The node is `t`, or not inside of it. -/
def AnyNode.Outside (root t n : AnyNode) : Prop := n ∈ root.nodes ∧ (n = t ∨ n ∉ t.nodes)

theorem AnyNode.Outside.child {root t n m : AnyNode} (h : Outside root t n) (hids : root.DistinctIds)
    (ht : t ∈ root.nodes) (hne : n ≠ t) (hm : m ∈ n.children) : Outside root t m := by
  have hn : n ∉ t.nodes := h.2.resolve_left hne
  refine ⟨mem_nodes_trans h.1 (child_mem_nodes hm), ?_⟩
  by_cases hmt : m ∈ t.nodes
  · left
    rcases nested_or_apart h.1 ht with hnt | htn | ⟨p, hp, a, ha, b, hb, hab, hna, htb⟩
    · exact (hn hnt).elim
    · have := (hids.of_mem h.1).mem_child hm htn (Ne.symm hne) m.self_mem_nodes hmt
      exact nodes_antisymm hmt this
    · have hma := mem_nodes_trans hna (child_mem_nodes hm)
      exact (hab ((hids.of_mem hp).children_eq ha hb hma (mem_nodes_trans htb hmt))).elim
  · exact Or.inr hmt

namespace Plan.Targets

variable {InHeader : Expr → Prop} {root : AnyNode} {t : Expr}

theorem ne_ident (h : plan.Targets InHeader root t) {w : NodeId} {name : String}
    (hw : ⟨.ident w name⟩ ∈ root.nodes) : w ≠ t.id := by
  intro hid
  have heq := h.ids.eq_of_id hw h.mem hid
  cases heq
  cases h.call

theorem eq_of_id (h : plan.Targets InHeader root t) {n : AnyNode} (hn : Outside root ⟨t⟩ n)
    (hid : (n.prune plan).id = (t.prune plan).id) : n = ⟨t⟩ := by
  have hu := h.unwraps.of_mem hn.1
  induction n, hu using Plan.Unwraps.induct with
  | stays n _ hr _ =>
    have hres : ⟨t.residue plan⟩ ∈ AnyNode.nodes ⟨t⟩ := Node.residue_mem_nodes plan t
    rw [AnyNode.id, AnyNode.prune, Node.id_prune hr, (h.unwraps.of_mem h.mem).id_prune_eq] at hid
    have heq := h.ids.eq_of_id hn.1 (mem_nodes_trans h.mem hres) hid
    exact hn.2.resolve_right fun hout => hout (heq ▸ hres)
  | wrapper id w name arg spread _ hplan ih =>
    by_contra hne
    rw [Plan.Unwraps.prune_wrapper hplan] at hid
    have harg := hn.child h.ids h.mem hne (arg_mem_children ..)
    cases ih harg hid
    have := h.outer id _ spread hn.1
    simp [hplan] at this

theorem face_wrapper (h : plan.Targets InHeader root t) {e : Expr} (he : Outside root ⟨t⟩ ⟨e⟩)
    (hheader : InHeader e) (hgoes : e.remnant? plan ≠ none) (hid : e.id ≠ t.id) (f : Face) :
    (e.prune plan).face (f.standing (t.prune plan).id) = e.face (f.standing t.id) := by
  obtain ⟨c, callee, args, spread, hprune, hopening, hexposes, hout⟩ := h.closed e he.1 hgoes
  have hleft : (e.prune plan).id ≠ (t.prune plan).id := by
    intro heq
    have := h.eq_of_id he heq
    cases this
    exact hid rfl
  rcases (h.unwraps.of_mem he.1).stays_or_wrapper with hr | ⟨id, w, name, arg, s, -, heq, -⟩
  · exact (hgoes hr).elim
  cases heq
  have hw : w ≠ t.id :=
    h.ne_ident (mem_nodes_trans he.1 (child_mem_nodes (callee_mem_children ..)))
  have hname : (Node.ident w name).face (f.standing t.id) = .closed := by
    rw [Node.face_standing]
    · rfl
    · simpa [AnyNode.ids, nodes_eq, AnyNode.children, Node.children, AnyNode.id, Node.id] using hw.symm
  rw [hprune] at hleft ⊢
  rw [Node.face_call (if_neg hleft.symm), Node.face_call (if_neg (Ne.symm hid)), hname,
    Node.face_standing hout, hopening, hexposes hheader]
  rfl

theorem face_prune (h : plan.Targets InHeader root t) {e : Expr} (he : Outside root ⟨t⟩ ⟨e⟩)
    (hheader : e = t ∨ InHeader e) (f : Face) :
    (e.prune plan).face (f.standing (t.prune plan).id) = e.face (f.standing t.id) := by
  have hne : ∀ {e : Expr}, (f.standing t.id) e.id = none → e ≠ t := by
    rintro e hshown rfl
    simp [Face.standing] at hshown
  refine (h.unwraps.of_mem he.1).seen_face_prune true
    (P := fun e => Outside root ⟨t⟩ ⟨e⟩ ∧ (e = t ∨ InHeader e)) ?_ ?_ ?_ ⟨he, hheader⟩
  · rintro e ⟨he, hheader⟩ hshown x hx
    refine ⟨he.child h.ids h.mem ?_ hx, Or.inr (h.below e x (hheader.resolve_left (hne hshown)) hx)⟩
    rintro heq
    cases heq
    exact hne hshown rfl
  · rintro e ⟨he, -⟩
    have hiff : (t.prune plan).id = (e.prune plan).id ↔ t.id = e.id := by
      constructor
      · intro hid
        cases h.eq_of_id he hid.symm
        rfl
      · intro hid
        cases h.ids.eq_of_id he.1 h.mem hid.symm
        rfl
    simp only [Face.standing, hiff]
  · rintro e ⟨he, hheader⟩ hgoes hshown
    refine h.face_wrapper he (hheader.resolve_left (hne hshown)) hgoes ?_ f
    intro hid
    simp [Face.standing, hid] at hshown

theorem ne_left (h : plan.Targets InHeader root t) {n : AnyNode} (hn : Outside root ⟨t⟩ n)
    (hid : n.node.id ≠ t.id) : (n.prune plan).node.id ≠ (t.prune plan).id := by
  intro heq
  cases h.eq_of_id hn heq
  exact hid rfl

theorem outside_piece (h : plan.Targets InHeader root t) {n m : AnyNode} (hn : Outside root ⟨t⟩ n)
    (hid : n.node.id ≠ t.id) {k : Nat} {ctx ctx' : Ctx} (hm : .sub k ctx' m ∈ n.node.written ctx) :
    Outside root ⟨t⟩ m := by
  have hne : n ≠ ⟨t⟩ := by
    rintro rfl
    exact hid rfl
  rcases n.node.cases_of_piece hm with hchild | ⟨-, hmethod⟩
  · exact hn.child h.ids h.mem hne hchild
  · obtain ⟨fid, names, ft, params, results, hf, ht, hg⟩ := hmethod.exists_children
    have hfield := hn.child h.ids h.mem hne hf
    have htype := hfield.child h.ids h.mem (fun he => by cases he) ht
    refine htype.child h.ids h.mem ?_ hg
    intro he
    cases he
    cases h.call

theorem verdict_ctx (h : plan.Targets InHeader root t) {e : Expr} (he : Outside root ⟨t⟩ ⟨e⟩)
    (hgoes : e.remnant? plan ≠ none) (hid : e.id ≠ t.id) {f : Face} {ctx : Ctx} {b : Bool}
    (hv : Verdict (t.prune plan).id f ⟨e.prune plan⟩ ctx b) (ctx' : Ctx) :
    Verdict (t.prune plan).id f ⟨e.prune plan⟩ ctx' b := by
  obtain ⟨c, callee, args, spread, hprune, -, -, hout⟩ := h.closed e he.1 hgoes
  have hleft := h.ne_left he hid
  simp only [AnyNode.prune] at hleft
  rw [hprune] at hv hleft ⊢
  cases hv with
  | target _ hx => exact (hleft hx).elim
  | piece hn hparen hm hv =>
    refine .piece hn hparen (k := 0) ?_ hv
    simp [Node.pieces] at hm ⊢
    -- Only the callee is printed into a slot that depends on `ctx`, and `t` is among the arguments.
    rcases hm with ⟨-, -, rfl⟩ | ⟨-, hctx, a, ha, rfl⟩
    · exact (hout hv.mem_ids).elim
    · exact Or.inr ⟨hctx, a, ha, rfl⟩

theorem verdict_stays (h : plan.Targets InHeader root t) {n m : AnyNode} (hn : Outside root ⟨t⟩ n)
    (hid : n.id ≠ t.id) (hparen : n.node.isParen = false) (hr : n.node.remnant? plan = none) {k : Nat}
    {ctx ctx' : Ctx} (hm : .sub k ctx' m ∈ n.node.written ctx) {f : Face} {b : Bool}
    (hv : Verdict (t.prune plan).id f (m.prune plan) ctx' b) :
    Verdict (t.prune plan).id f (n.prune plan) ctx b := by
  refine .piece (k := k) (h.ne_left hn hid) ?_ ?_ hv
  · obtain ⟨n⟩ := n
    cases n
    case call c f args s => simp [AnyNode.prune, Node.prune_call hr, Node.isParen]
    case paren => simp [Node.isParen] at hparen
    all_goals simp [AnyNode.prune, Node.prune, Node.isParen]
  · rw [(h.unwraps.of_mem hn.1).written_prune hr]
    exact List.mem_map.mpr ⟨_, hm, rfl⟩

theorem verdict_wrapper (h : plan.Targets InHeader root t) {id w : NodeId} {name : String} {arg : Expr}
    {spread : Bool} (hn : Outside root ⟨t⟩ ⟨.call id (.ident w name) [arg] spread⟩)
    (hplan : plan id = some .bare) (hid : id ≠ t.id) {m : AnyNode} {k : Nat} {ctx ctx' : Ctx}
    (hm : .sub k ctx' m ∈ (Node.call id (.ident w name) [arg] spread).written ctx)
    (hmem : t.id ∈ m.ids) {f : Face} {b : Bool}
    (hv : Verdict (t.prune plan).id f (m.prune plan) ctx' b) :
    Verdict (t.prune plan).id f ⟨(Node.call id (.ident w name) [arg] spread).prune plan⟩ ctx b := by
  have hgoes : (Node.call id (.ident w name) [arg] spread).remnant? plan ≠ none := by
    simp [Node.remnant?, hplan]
  simp [Node.pieces] at hm
  rcases hm with ⟨-, -, rfl⟩ | ⟨-, -, rfl⟩
  · -- There is nothing below the name of a wrapper.
    simp [AnyNode.ids, nodes_eq, AnyNode.children, Node.children] at hmem
    have hident := mem_nodes_trans hn.1 (child_mem_nodes (callee_mem_children ..))
    exact (h.ne_ident hident hmem.symm).elim
  · have hleft : Verdict (t.prune plan).id f
        ⟨(Node.call id (.ident w name) [arg] spread).prune plan⟩ ctx' b := by
      simpa only [AnyNode.prune, Node.prune, hplan] using hv
    exact h.verdict_ctx hn hgoes hid hleft ctx

theorem verdict_prune (h : plan.Targets InHeader root t) {f : Face} {n : AnyNode} {ctx : Ctx} {b : Bool}
    (hv : Verdict t.id f n ctx b) (hn : Outside root ⟨t⟩ n) :
    Verdict (t.prune plan).id f (n.prune plan) ctx b := by
  induction hv with
  | @target x ctx hx =>
    have heq := h.ids.eq_of_id hn.1 h.mem hx
    cases heq
    exact .target ctx rfl
  | @piece n m ctx ctx' k b hid hparen hm hv ih =>
    have hm' := ih (h.outside_piece hn hid hm)
    rcases (h.unwraps.of_mem hn.1).stays_or_wrapper (n := n.node) with
      hr | ⟨id, w, name, arg, spread, hplan, heq, -⟩
    · exact h.verdict_stays hn hid hparen hr hm hm'
    · obtain ⟨n⟩ := n
      cases heq
      exact h.verdict_wrapper hn hplan hid hm hv.mem_ids hm'
  | @paren id x ctx b hid hsame hv ih =>
    have hx := hn.child h.ids h.mem (by rintro ⟨⟩; exact hid rfl) (paren_mem_children id x)
    have hpath := h.path id x hn.1 (h.ids.mem_of_id hx.1 h.mem hv.mem_ids)
    have hx' := ih hx
    have hleft := h.ne_left hn hid
    simp only [AnyNode.prune, Node.prune] at hleft hx' ⊢
    rw [← h.face_prune hx hpath, ← h.face_prune hx hpath] at hsame
    rw [← h.face_prune hx hpath] at hx'
    exact .paren hleft hsame hx'
  | @supplied id x ctx hid hx hneeds =>
    have hmem := mem_nodes_trans hn.1 (child_mem_nodes (paren_mem_children id x))
    cases h.ids.eq_of_id hmem h.mem hx
    have hleft := h.ne_left hn hid
    simp only [AnyNode.prune, Node.prune] at hleft ⊢
    exact .supplied hleft rfl hneeds
  | @shifted id x ctx hid hx hdiffer =>
    have hout := hn.child h.ids h.mem (by rintro ⟨⟩; exact hid rfl) (paren_mem_children id x)
    have hmem : t.id ∈ AnyNode.ids ⟨x⟩ := by
      by_contra hnot
      exact hdiffer (by rw [Node.face_standing hnot, Node.face_standing hnot])
    have hpath := h.path id x hn.1 (h.ids.mem_of_id hout.1 h.mem hmem)
    have hleft := h.ne_left hn hid
    have hleft' := h.ne_left hout hx
    simp only [AnyNode.prune, Node.prune] at hleft hleft' ⊢
    rw [← h.face_prune hout hpath, ← h.face_prune hout hpath] at hdiffer
    exact .shifted hleft hleft' hdiffer

end Plan.Targets

/-! ## Surroundings -/

theorem hasHeader_prune {n : AnyNode} (hr : n.node.remnant? plan = none) :
    (n.prune plan).hasHeader = n.hasHeader := by
  obtain ⟨n⟩ := n
  rw [AnyNode.prune, Node.prune_eq_mapChildren hr]
  cases n <;> rfl

theorem endsHeader_prune {n : AnyNode} (hr : n.node.remnant? plan = none) :
    (n.prune plan).endsHeader = n.endsHeader := by
  obtain ⟨n⟩ := n
  rw [AnyNode.prune, Node.prune_eq_mapChildren hr]
  cases n <;> rfl

theorem headerAround_pruneAncestors (ancestors : List AnyNode) :
    headerAround (pruneAncestors plan ancestors) =
      (headerAround ancestors).map (·.prune plan) := by
  induction ancestors with
  | nil => rfl
  | cons a as ih =>
    cases hr : a.node.remnant? plan with
    | none =>
      have hcons : pruneAncestors plan (a :: as) = a.prune plan :: pruneAncestors plan as := by
        simp [pruneAncestors, hr]
      rw [hcons, headerAround, headerAround, hasHeader_prune hr, endsHeader_prune hr, ih]
      split
      · rfl
      · split <;> rfl
    | some r =>
      obtain ⟨id, callee, arg, spread, heq, hid⟩ := Node.exists_of_remnant? hr
      obtain ⟨a⟩ := a
      cases heq
      have hskip : headerAround (⟨.call id callee [arg] spread⟩ :: as) = headerAround as := rfl
      rw [hskip, ← ih]
      cases r with
      | bare => simp [pruneAncestors, hr]
      | wrapped =>
        simp [pruneAncestors, hr, AnyNode.prune, Node.prune, hid, headerAround, AnyNode.hasHeader,
          AnyNode.endsHeader]

theorem surroundings_prune (parent : AnyNode) (ancestors : List AnyNode) :
    ParensTrial.surroundings (parent.prune plan) (pruneAncestors plan ancestors) =
      (ParensTrial.surroundings parent ancestors).prune plan := by
  rw [surroundings_eq, surroundings_eq, headerAround_pruneAncestors]
  cases headerAround ancestors <;> rfl

end ConvSweep
