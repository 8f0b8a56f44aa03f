import ConvSweep.Proofs.Decisions
import ConvSweep.Proofs.Leaves

/-! # What is left in a slot

A slot that held a conversion is left with its argument, perhaps in parentheses. Where the argument is
a conversion that goes too, it is left with the argument of that one, and so on.
-/

namespace ConvSweep

open AnyNode

namespace Node

/-- What stays of a node: through conversions that go, the first expression that does not. -/
def residue (plan : Plan) : {c : Category} → Node c → Node c
  | _, .call id callee [arg] spread =>
    match plan id with
    | none => .call id callee [arg] spread
    | some _ => arg.residue plan
  | _, n => n

/-- The node inside parentheses that were left by conversions. -/
def uncover (plan : Plan) : {c : Category} → Node c → Node c
  | _, .paren id x =>
    match plan id with
    | none => .paren id x
    | some _ => x.uncover plan
  | _, n => n

variable {c : Category} {plan : Plan} {n : Node c}

theorem residue_eq_self (h : n.remnant? plan = none) : n.residue plan = n := by
  unfold residue
  split
  · rw [remnant?] at h
    rw [h]
  · rfl

theorem residue_call {id : NodeId} {callee arg : Expr} {spread : Bool} (h : plan id ≠ none) :
    (Node.call id callee [arg] spread).residue plan = arg.residue plan := by
  obtain ⟨r, hr⟩ := Option.ne_none_iff_exists'.mp h
  rw [residue, hr]

theorem exists_of_goes {e : Expr} (h : e.remnant? plan ≠ none) :
    ∃ id callee arg spread, e = .call id callee [arg] spread ∧ plan id ≠ none := by
  obtain ⟨r, hr⟩ := Option.ne_none_iff_exists'.mp h
  obtain ⟨id, callee, arg, spread, heq, hid⟩ := exists_of_remnant? hr
  cases heq
  exact ⟨id, callee, arg, spread, rfl, by simp [hid]⟩

theorem prune_call {id : NodeId} {callee : Expr} {args : List Expr} {spread : Bool}
    (h : (Node.call id callee args spread).remnant? plan = none) :
    (Node.call id callee args spread).prune plan =
      .call id (callee.prune plan) (args.map (·.prune plan)) spread := prune_eq_mapChildren h

theorem residue_induct (plan : Plan) {motive : Expr → Prop} (stays : ∀ e, e.remnant? plan = none → motive e)
    (goes : ∀ id callee arg spread, plan id ≠ none → motive arg →
      motive (.call id callee [arg] spread)) (e : Expr) : motive e := by
  generalize hn : (⟨e⟩ : AnyNode) = n
  induction n using AnyNode.induct generalizing e with
  | step n ih =>
    subst hn
    by_cases h : e.remnant? plan = none
    · exact stays e h
    · obtain ⟨id, callee, arg, spread, rfl, hid⟩ := exists_of_goes h
      exact goes id callee arg spread hid (ih ⟨arg⟩ (arg_mem_children ..) arg rfl)

theorem remnant?_residue (plan : Plan) (e : Expr) : (e.residue plan).remnant? plan = none := by
  induction e using residue_induct plan with
  | stays e h => rwa [residue_eq_self h]
  | goes id callee arg spread hid ih => rwa [residue_call hid]

theorem residue_mem_nodes (plan : Plan) (e : Expr) : ⟨e.residue plan⟩ ∈ AnyNode.nodes ⟨e⟩ := by
  induction e using residue_induct plan with
  | stays e h =>
    rw [residue_eq_self h]
    exact self_mem_nodes _
  | goes id callee arg spread hid ih =>
    rw [residue_call hid]
    exact mem_nodes_of_child (arg_mem_children ..) ih

theorem uncover_prune {e : Expr} (h : e.remnant? plan = none)
    (hparen : e.isParen = true → plan e.id = none) :
    (e.prune plan).uncover plan = e.prune plan := by
  cases e
  case paren id x =>
    have hid : plan id = none := hparen rfl
    rw [Node.prune, uncover, hid]
  case call id callee args spread => rw [prune_call h, uncover]; simp
  all_goals simp only [Node.prune, uncover]

theorem id_prune (h : n.remnant? plan = none) : (n.prune plan).id = n.id := by
  rw [prune_eq_mapChildren h, id_mapChildren]

theorem uncover_prune_eq_residue (e : Expr)
    (hparen : ∀ x : Expr, ⟨x⟩ ∈ AnyNode.nodes ⟨e⟩ → x.isParen = true → plan x.id = none) :
    (e.prune plan).uncover plan = (e.residue plan).prune plan := by
  induction e using residue_induct plan with
  | stays e h =>
    rw [residue_eq_self h]
    exact uncover_prune h (hparen e (self_mem_nodes _))
  | goes id callee arg spread hid ih =>
    have harg := ih fun x hx => hparen x (mem_nodes_of_child (arg_mem_children ..) hx)
    rw [residue_call hid, ← harg, Node.prune]
    obtain ⟨r, hr⟩ := Option.ne_none_iff_exists'.mp hid
    cases r <;> simp [hr, uncover]

end Node

theorem AnyNode.exists_of_prune_call {plan : Plan} {n : AnyNode} {id : NodeId} {callee arg : Expr}
    {spread : Bool} (h : n.node.remnant? plan = none)
    (heq : n.prune plan = ⟨.call id callee [arg] spread⟩) :
    ∃ callee' arg', n = ⟨.call id callee' [arg'] spread⟩ ∧ callee'.prune plan = callee ∧
      arg'.prune plan = arg := by
  obtain ⟨n⟩ := n
  cases n
  case call id' callee' args spread' =>
    rw [AnyNode.prune, Node.prune_call h] at heq
    rcases args with _ | ⟨arg', _ | ⟨b, args⟩⟩ <;> simp at heq
    obtain ⟨rfl, hcallee, harg, rfl⟩ := heq
    exact ⟨_, _, rfl, hcallee, harg⟩
  all_goals simp [AnyNode.prune, Node.prune] at heq

/-! ## Children -/

theorem Node.children_prune {c : Category} {plan : Plan} {n : Node c} (h : n.remnant? plan = none) :
    (n.prune plan).children = n.children.map fun s => (s.1, s.2.prune plan) := by
  rw [prune_eq_mapChildren h, children_mapChildren]
  rfl

theorem AnyNode.children_prune {plan : Plan} {n : AnyNode} (h : n.node.remnant? plan = none) :
    (n.prune plan).children = n.children.map (·.prune plan) := by
  rw [AnyNode.children, AnyNode.prune, Node.children_prune h, AnyNode.children, List.map_map,
    List.map_map]
  rfl

/-! ## Visits -/

/-- What is left of the ancestors of a node: a conversion is an ancestor no longer, or as a pair of
parentheses. -/
def pruneAncestors (plan : Plan) (ancestors : List AnyNode) : List AnyNode :=
  (ancestors.filter fun a => a.node.remnant? plan ≠ some .bare).map (·.prune plan)

/-- The visit of a node that stays, in the pruned tree. -/
def Visit.prune (plan : Plan) (v : Visit) : Visit :=
  ⟨v.node.prune plan, pruneAncestors plan v.ancestors⟩

theorem exists_visit_of_prune {plan : Plan} {n : AnyNode} {as : List AnyNode} {v : Visit}
    (hv : v ∈ (n.prune plan).visits (pruneAncestors plan as)) :
    (∃ id x, v.node = ⟨.paren id x⟩ ∧ plan id ≠ none) ∨
      ∃ w ∈ n.visits as, w.node.node.remnant? plan = none ∧ v = w.prune plan := by
  induction n using AnyNode.induct generalizing as with
  | step n ih =>
    have hchild : ∀ m ∈ n.children, v ∈ (m.prune plan).visits (pruneAncestors plan (n :: as)) →
        (∃ id x, v.node = ⟨.paren id x⟩ ∧ plan id ≠ none) ∨
          ∃ w ∈ n.visits as, w.node.node.remnant? plan = none ∧ v = w.prune plan := by
      intro m hm hv
      refine (ih m hm hv).imp_right ?_
      rintro ⟨w, hw, h⟩
      exact ⟨w, mem_visits_of_child hm hw, h⟩
    -- Of a conversion that goes only the argument is visited, in parentheses where those stay.
    cases hr : n.node.remnant? plan with
    | none =>
      rw [visits_eq, List.mem_cons, AnyNode.children_prune hr, List.mem_flatMap] at hv
      rcases hv with rfl | ⟨m', hm', hv⟩
      · refine Or.inr ⟨⟨n, as⟩, ?_, hr, rfl⟩
        rw [visits_eq]
        exact List.mem_cons_self
      · obtain ⟨m, hm, rfl⟩ := List.mem_map.mp hm'
        exact hchild m hm (by simpa [pruneAncestors, hr] using hv)
    | some r =>
      obtain ⟨id, callee, arg, spread, heq, hid⟩ := Node.exists_of_remnant? hr
      obtain ⟨n⟩ := n
      cases heq
      have harg := arg_mem_children id callee arg spread
      cases r with
      | bare =>
        refine hchild ⟨arg⟩ harg ?_
        simpa [pruneAncestors, hr, AnyNode.prune, Node.prune, hid] using hv
      | wrapped =>
        have hprune : AnyNode.prune plan ⟨.call id callee [arg] spread⟩ =
            ⟨.paren id (arg.prune plan)⟩ := by
          rw [AnyNode.prune, Node.prune, hid]
        rw [hprune, visits_eq, List.mem_cons, List.mem_flatMap] at hv
        rcases hv with rfl | ⟨m, hm, hv⟩
        · exact Or.inl ⟨id, _, rfl, by simp [hid]⟩
        · obtain rfl : m = ⟨arg.prune plan⟩ := by
            simpa [AnyNode.children, Node.children, Slot.one] using hm
          have hancestors : pruneAncestors plan (⟨.call id callee [arg] spread⟩ :: as) =
              ⟨.paren id (arg.prune plan)⟩ :: pruneAncestors plan as := by
            simp [pruneAncestors, hr, hprune]
          refine hchild ⟨arg⟩ harg ?_
          rw [hancestors]
          exact hv

/-! ## Detection -/

section

variable {unit : SourceUnit} {options : DetectOptions} {removals : RemovalSet}

theorem exists_visit_of_without {v : Visit}
    (hv : v ∈ AnyNode.visits ⟨unit.without options removals⟩ []) :
    (∃ id x, v.node = ⟨.paren id x⟩ ∧ unit.plan options removals id ≠ none) ∨
      ∃ w ∈ AnyNode.visits ⟨unit.file⟩ [],
        w.node.node.remnant? (unit.plan options removals) = none ∧
        v = w.prune (unit.plan options removals) :=
  exists_visit_of_prune hv

theorem plan_id_eq_none (hids : DistinctIds ⟨unit.file⟩) {x : AnyNode}
    (hx : x ∈ AnyNode.nodes ⟨unit.file⟩) (h : x.node.remnant? (unit.plan options removals) = none) :
    unit.plan options removals x.id = none := by
  by_contra hid
  obtain ⟨r, hr⟩ := Option.ne_none_iff_exists'.mp hid
  obtain ⟨c, hc, hcid, -⟩ := (plan_eq_some_iff hids).mp hr
  obtain rfl := hids.eq_of_id (c.node_mem hids hc) hx hcid
  rw [Conversion.node, Conversion.expr, Node.remnant?, hcid, hr] at h
  cases h

theorem mem_redundant_iff_goes {found : Findings} (hids : DistinctIds ⟨unit.file⟩)
    (h : detect unit options = .ok found) {x : AnyNode} (hx : x ∈ AnyNode.nodes ⟨unit.file⟩) :
    x.id ∈ unit.redundant options ↔
      x.node.remnant? (unit.plan options found.removals) ≠ none := by
  rw [← plan_ne_none_iff_mem hids h, not_iff_not]
  refine ⟨fun hid => ?_, plan_id_eq_none hids hx⟩
  by_contra hgoes
  obtain ⟨r, hr⟩ := Option.ne_none_iff_exists'.mp hgoes
  obtain ⟨id, callee, arg, spread, heq, hplan⟩ := Node.exists_of_remnant? hr
  obtain ⟨n⟩ := x
  cases heq
  rw [AnyNode.id, Node.id, hplan] at hid
  cases hid

theorem uncover_prune_of_mem (hids : DistinctIds ⟨unit.file⟩) {e : Expr}
    (he : ⟨e⟩ ∈ AnyNode.nodes ⟨unit.file⟩) :
    (e.prune (unit.plan options removals)).uncover (unit.plan options removals) =
      (e.residue (unit.plan options removals)).prune (unit.plan options removals) := by
  apply Node.uncover_prune_eq_residue
  intro x hx hparen
  refine plan_id_eq_none hids (mem_nodes_trans he hx) ?_
  cases x <;> first | rfl | simp [Node.isParen] at hparen

end

end ConvSweep
