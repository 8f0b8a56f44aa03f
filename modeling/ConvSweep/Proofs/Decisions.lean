import ConvSweep.Proofs.Conversions

/-! # What the first walk decides

The first walk decides one conversion after the other, and a decision looks at those made before.
Since parents come before their children, the set that it ends with is a fixed point: a conversion is
in it exactly if it is redundant with respect to the whole set.
-/

namespace ConvSweep

namespace AnyNode

variable {n x a : AnyNode}

theorem callee_mem_children (id : NodeId) (callee : Expr) (args : List Expr) (spread : Bool) :
    ⟨callee⟩ ∈ AnyNode.children ⟨.call id callee args spread⟩ := by
  simp [AnyNode.children, Node.children, Slot.one]

theorem arg_mem_children (id : NodeId) (callee arg : Expr) (spread : Bool) :
    ⟨arg⟩ ∈ AnyNode.children ⟨.call id callee [arg] spread⟩ := by
  simp [AnyNode.children, Node.children]

theorem paren_mem_children (id : NodeId) (x : Expr) : ⟨x⟩ ∈ AnyNode.children ⟨.paren id x⟩ := by
  simp [AnyNode.children, Node.children, Slot.one]

/-! ## Parents come first -/

theorem pairwise_nodes (h : n.DistinctIds) : n.nodes.Pairwise fun x y => x ∉ y.nodes := by
  induction n using AnyNode.induct with
  | step n ih =>
    rw [nodes_eq, List.pairwise_cons, List.pairwise_flatMap]
    refine ⟨?_, fun m hm => ih m hm (h.child hm), ?_⟩
    · intro y hy hn
      obtain ⟨m, hm, hym⟩ := List.mem_flatMap.mp hy
      exact not_mem_nodes_child hm (mem_nodes_trans hym hn)
    · refine h.nodup_children.imp_of_mem ?_
      intro b c hb hc hne y hy z hz hyz
      exact hne (h.children_eq hb hc hy (mem_nodes_trans hz hyz))

theorem visit_child {m : AnyNode} {as bs : List AnyNode} (hv : ⟨x, bs⟩ ∈ n.visits as)
    (hm : m ∈ x.children) : ⟨m, x :: bs⟩ ∈ n.visits as := by
  refine mem_visits_trans hv (mem_visits_of_child hm ?_)
  rw [visits_eq]
  exact List.mem_cons_self

theorem exists_child_of_ancestor {ancestors : List AnyNode} (hv : ⟨x, ancestors⟩ ∈ n.visits [])
    (ha : a ∈ ancestors) : ∃ m ∈ a.children, x ∈ m.nodes := by
  induction ancestors generalizing x with
  | nil => simp at ha
  | cons p ps ih =>
    rcases visit_cases hv with ⟨-, hnil⟩ | ⟨q, qs, heq, hq, hx⟩
    · simp at hnil
    · cases heq
      rcases List.mem_cons.mp ha with rfl | ha
      · exact ⟨x, hx, x.self_mem_nodes⟩
      · obtain ⟨m, hm, hpm⟩ := ih hq ha
        exact ⟨m, hm, mem_nodes_trans hpm (child_mem_nodes hx)⟩

theorem ancestor_before (hids : n.DistinctIds) {before after : List Visit} {v : Visit}
    (hsplit : n.visits [] = before ++ v :: after) (ha : a ∈ v.ancestors) :
    ∃ w ∈ before, w.node = a := by
  have hv : v ∈ n.visits [] := by simp [hsplit]
  obtain ⟨m, hm, hvm⟩ := exists_child_of_ancestor hv ha
  have hva : v.node ∈ a.nodes := mem_nodes_of_child hm hvm
  have hroot : a ∈ n.nodes := (mem_nodes_of_ancestor hv ha).resolve_left List.not_mem_nil
  obtain ⟨bs, hw⟩ := exists_visit [] hroot
  rw [hsplit, List.mem_append, List.mem_cons] at hw
  rcases hw with hw | hw | hw
  · exact ⟨_, hw, rfl⟩
  · rw [← hw] at hvm
    exact (not_mem_nodes_child hm hvm).elim
  · have hpair := pairwise_nodes hids
    rw [← map_node_visits n [], hsplit, List.pairwise_map, List.pairwise_append,
      List.pairwise_cons] at hpair
    exact (hpair.2.1.1 _ hw hva).elim

end AnyNode

/-! ## One decision -/

namespace Detect

open AnyNode

/-- Whether the conversion of `arg` by `callee` is redundant where the conversions of `redundant` go:
the argument has the type of the callee, is not untyped, and nothing is kept apart. -/
def Redundant (info : TypeInfo) (options : DetectOptions) (redundant : List NodeId)
    (ancestors : List AnyNode) (callee arg : Expr) : Prop :=
  ∃ target operand, info.typeOf callee.id = some target ∧ target.isType = true ∧
    info.typeOf arg.id = some operand ∧ identical target.type operand.type = true ∧
    arg.isUntyped info options.untyped = false ∧
    (options.fastMath = true ∨ keepsApart redundant target.type arg ancestors = false)

variable {info : TypeInfo} {options : DetectOptions}

theorem keepsApart_congr {r r' : List NodeId} {ancestors : List AnyNode}
    (h : ∀ a ∈ ancestors, a.id ∈ r ↔ a.id ∈ r') (target : GoType) (arg : Expr) :
    keepsApart r target arg ancestors = keepsApart r' target arg ancestors := by
  have houter : outer? r ancestors = outer? r' ancestors := by
    induction ancestors with
    | nil => rfl
    | cons a as ih =>
      have hrest := ih fun b hb => h b (List.mem_cons_of_mem _ hb)
      have ha := h a List.mem_cons_self
      unfold outer? at hrest ⊢
      rw [List.find?_cons, List.find?_cons, hrest]
      obtain ⟨a⟩ := a
      cases a <;> try rfl
      case call id callee args spread =>
        have hid : r.contains id = r'.contains id := by
          rw [Bool.eq_iff_iff, List.contains_iff_mem, List.contains_iff_mem]
          exact ha
        simp only [hid]
  unfold keepsApart
  rw [houter]

theorem Redundant.congr {r r' : List NodeId} {ancestors : List AnyNode} {callee arg : Expr}
    (h : ∀ a ∈ ancestors, a.id ∈ r ↔ a.id ∈ r')
    (hred : Redundant info options r ancestors callee arg) :
    Redundant info options r' ancestors callee arg := by
  obtain ⟨target, operand, hcallee, htype, harg, hsame, huntyped, hapart⟩ := hred
  rw [keepsApart_congr h] at hapart
  exact ⟨target, operand, hcallee, htype, harg, hsame, huntyped, hapart⟩

theorem Scan.mem_redundant_conversion {s : Scan} {ancestors : List AnyNode} {id call : NodeId}
    {callee arg : Expr} :
    id ∈ (s.conversion info options ancestors call callee arg).redundant ↔
      id ∈ s.redundant ∨ id = call ∧ Redundant info options s.redundant ancestors callee arg := by
  unfold conversion Redundant
  cases hcallee : info.typeOf callee.id with
  | none => simp [note]
  | some target =>
    cases htype : target.isType with
    | false => simp [htype]
    | true =>
      cases harg : info.typeOf arg.id with
      | none => simp [note, htype]
      | some operand =>
        cases hsame : identical target.type operand.type with
        | false => simp [hsame]
        | true =>
          cases huntyped : arg.isUntyped info options.untyped with
          | true => simp
          | false =>
            cases hfast : options.fastMath <;>
              cases hapart : keepsApart s.redundant target.type arg ancestors <;>
              simp [note, htype, hsame, hapart, or_comm]

theorem Scan.mem_redundant_visit {s : Scan} {v : Visit} {id : NodeId} :
    id ∈ (s.visit info options v).redundant ↔ id ∈ s.redundant ∨
      ∃ callee arg ancestors, v = ⟨⟨.call id callee [arg] false⟩, ancestors⟩ ∧
        Redundant info options s.redundant ancestors callee arg := by
  unfold visit
  split
  · rename_i call callee arg ancestors
    rw [mem_redundant_conversion]
    refine or_congr_right ⟨?_, ?_⟩
    · rintro ⟨rfl, hred⟩
      exact ⟨callee, arg, ancestors, rfl, hred⟩
    · rintro ⟨callee', arg', ancestors', heq, hred⟩
      cases heq
      exact ⟨rfl, hred⟩
  · rename_i hne
    simp only [iff_self_or, forall_exists_index, and_imp]
    rintro callee arg ancestors rfl
    exact (hne _ _ _ _ rfl).elim

/-! ## All decisions -/

theorem mem_redundant_foldl (vs : List Visit) {s : Scan} {id : NodeId} :
    id ∈ (vs.foldl (Scan.visit info options) s).redundant ↔ id ∈ s.redundant ∨
      ∃ before callee arg ancestors after,
        vs = before ++ ⟨⟨.call id callee [arg] false⟩, ancestors⟩ :: after ∧
        Redundant info options (before.foldl (Scan.visit info options) s).redundant ancestors
          callee arg := by
  induction vs generalizing s with
  | nil => simp
  | cons v vs ih =>
    rw [List.foldl_cons, ih, Scan.mem_redundant_visit, or_assoc]
    refine or_congr_right ⟨?_, ?_⟩
    · rintro (⟨callee, arg, ancestors, rfl, hred⟩ | ⟨before, callee, arg, ancestors, after, rfl, hred⟩)
      · exact ⟨[], callee, arg, ancestors, vs, rfl, hred⟩
      · exact ⟨v :: before, callee, arg, ancestors, after, rfl, hred⟩
    · rintro ⟨before, callee, arg, ancestors, after, hsplit, hred⟩
      cases before with
      | nil =>
        obtain ⟨rfl, rfl⟩ := List.cons.inj hsplit
        exact Or.inl ⟨callee, arg, ancestors, rfl, hred⟩
      | cons w before =>
        obtain ⟨rfl, rfl⟩ := List.cons.inj hsplit
        exact Or.inr ⟨before, callee, arg, ancestors, after, rfl, hred⟩

variable {file : File}

theorem mem_redundant_before (hids : DistinctIds ⟨file⟩) {before after : List Visit} {v : Visit}
    (hsplit : AnyNode.visits ⟨file⟩ [] = before ++ v :: after) {a : AnyNode}
    (ha : a ∈ v.ancestors) :
    a.id ∈ (before.foldl (Scan.visit info options) .start).redundant ↔
      a.id ∈ (scan file info options).redundant := by
  unfold scan
  rw [hsplit, List.foldl_append, mem_redundant_foldl (v :: after), iff_self_or]
  rintro ⟨pre, callee, arg, ancestors, post, hlater, -⟩
  obtain ⟨w, hw, hwa⟩ := ancestor_before hids hsplit ha
  -- The ancestor was visited before, so no later visit has its id.
  have hnodup : ((before ++ v :: after).map fun v => v.node.id).Nodup := by
    rw [← hsplit]
    rw [DistinctIds, ids, ← map_node_visits ⟨file⟩ [], List.map_map] at hids
    exact hids
  rw [List.map_append] at hnodup
  refine (List.disjoint_of_nodup_append hnodup (List.mem_map_of_mem hw) ?_).elim
  rw [hlater, hwa]
  exact List.mem_map.mpr ⟨_, List.mem_append_right _ List.mem_cons_self, rfl⟩

/-- The first walk ends with exactly the conversions that are redundant where all of these go. -/
theorem mem_redundant_iff (hids : DistinctIds ⟨file⟩) {id : NodeId} {callee arg : Expr}
    {ancestors : List AnyNode}
    (hv : ⟨⟨.call id callee [arg] false⟩, ancestors⟩ ∈ AnyNode.visits ⟨file⟩ []) :
    id ∈ (scan file info options).redundant ↔
      Redundant info options (scan file info options).redundant ancestors callee arg := by
  constructor
  · intro h
    unfold scan at h
    rw [mem_redundant_foldl] at h
    rcases h with h | ⟨before, callee', arg', ancestors', after, hsplit, hred⟩
    · simp [Scan.start] at h
    · have hv' : ⟨⟨.call id callee' [arg'] false⟩, ancestors'⟩ ∈ AnyNode.visits ⟨file⟩ [] := by
        simp [hsplit]
      cases hids.visit_eq hv hv' rfl
      exact hred.congr fun a ha => mem_redundant_before hids hsplit ha
  · intro h
    obtain ⟨before, after, hsplit⟩ := List.append_of_mem hv
    have hbefore : Redundant info options (before.foldl (Scan.visit info options) .start).redundant
        ancestors callee arg := h.congr fun a ha => (mem_redundant_before hids hsplit ha).symm
    unfold scan
    rw [mem_redundant_foldl]
    exact Or.inr ⟨before, callee, arg, ancestors, after, hsplit, hbefore⟩

end Detect

theorem Detect.redundant_foldl_eq_nil {info : TypeInfo} {options : DetectOptions} {vs : List Visit}
    {s : Detect.Scan} (hs : s.redundant = [])
    (h : ∀ id callee arg ancestors, ⟨⟨.call id callee [arg] false⟩, ancestors⟩ ∈ vs →
      ¬ Redundant info options [] ancestors callee arg) :
    (vs.foldl (Scan.visit info options) s).redundant = [] := by
  induction vs generalizing s with
  | nil => exact hs
  | cons v vs ih =>
    refine ih ?_ fun id callee arg ancestors hv => h id callee arg ancestors (List.mem_cons_of_mem _ hv)
    rw [List.eq_nil_iff_forall_not_mem]
    intro id hid
    rcases Scan.mem_redundant_visit.mp hid with hid | ⟨callee, arg, ancestors, rfl, hred⟩
    · simp [hs] at hid
    · rw [hs] at hred
      exact h id callee arg ancestors List.mem_cons_self hred

theorem detect_eq_empty {unit : SourceUnit} {options : DetectOptions}
    (h : unit.redundant options = []) :
    ∃ found, detect unit options = .ok found ∧ found.removals = .empty := by
  have hcuts : Detect.cuts unit [] (AnyNode.visits ⟨unit.file⟩ []) = .ok [] := by
    rw [Detect.cuts_eq_ok_iff, List.filterMap_eq_nil_iff.mpr]
    · exact .nil
    · intro v _
      unfold Visit.conversion?
      split <;> rfl
  unfold SourceUnit.redundant at h
  unfold detect
  simp only [h, hcuts]
  exact ⟨_, rfl, rfl⟩

/-! ## Plans -/

section

open AnyNode Detect

variable {unit : SourceUnit} {options : DetectOptions} {removals : RemovalSet} {id : NodeId}

theorem mem_redundant_of_plan (hids : DistinctIds ⟨unit.file⟩)
    (h : unit.plan options removals id ≠ none) : id ∈ unit.redundant options := by
  obtain ⟨r, hr⟩ := Option.ne_none_iff_exists'.mp h
  obtain ⟨c, hc, rfl, -⟩ := (plan_eq_some_iff hids).mp hr
  exact redundant_of_conversion hc

theorem plan_ne_none_iff_mem {found : Findings} (hids : DistinctIds ⟨unit.file⟩)
    (h : detect unit options = .ok found) :
    unit.plan options found.removals id ≠ none ↔ id ∈ unit.redundant options := by
  refine ⟨mem_redundant_of_plan hids, fun hid => ?_⟩
  obtain ⟨callee, arg, ancestors, hv⟩ := exists_visit_of_redundant hid
  exact (plan_ne_none_iff hids h).mpr ⟨_, conversion_of_visit hv hid, rfl⟩

theorem spread_eq_false (hids : DistinctIds ⟨unit.file⟩) {callee arg : Expr} {spread : Bool}
    {ancestors : List AnyNode}
    (hv : ⟨⟨.call id callee [arg] spread⟩, ancestors⟩ ∈ AnyNode.visits ⟨unit.file⟩ [])
    (hid : id ∈ unit.redundant options) : spread = false := by
  obtain ⟨callee', arg', ancestors', hv'⟩ := exists_visit_of_redundant hid
  cases hids.visit_eq hv hv' rfl
  rfl

theorem redundant_of_plan (hids : DistinctIds ⟨unit.file⟩) {callee arg : Expr} {spread : Bool}
    (hmem : ⟨.call id callee [arg] spread⟩ ∈ AnyNode.nodes ⟨unit.file⟩)
    (h : unit.plan options removals id ≠ none) :
    ∃ ancestors, Redundant unit.info options (unit.redundant options) ancestors callee arg := by
  obtain ⟨ancestors, hv⟩ := exists_visit [] hmem
  have hid := mem_redundant_of_plan hids h
  obtain rfl := spread_eq_false hids hv hid
  exact ⟨ancestors, (mem_redundant_iff hids hv).mp hid⟩

end

end ConvSweep
