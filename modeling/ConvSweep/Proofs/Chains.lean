import ConvSweep.Proofs.Conversions
import ConvSweep.Proofs.Trial

/-! # Chains of conversions

Conversions that go, each directly inside the one before, form a chain. Only the innermost one is
tried, with its argument in place of the outermost one.
-/

namespace ConvSweep

open AnyNode Detect

variable {unit : SourceUnit} {options : DetectOptions}

theorem Shows.ctx_of_arg {file : File} (hids : DistinctIds ⟨file⟩) {x : Expr} {ctx : Ctx}
    (h : Shows ⟨file⟩ .plain ⟨x⟩ ctx) {id : NodeId} {callee arg : Expr} {args : List Expr}
    {spread : Bool} {rest : List AnyNode}
    (hv : ⟨⟨x⟩, ⟨.call id callee (arg :: args) spread⟩ :: rest⟩ ∈ AnyNode.visits ⟨file⟩ [])
    (hid : arg.id = x.id) : ctx = .plain := by
  obtain ⟨p, ps, ctxp, k, heq, hp, -, hx⟩ := h.exists_parent hids hv
  cases heq
  have hpids := hids.of_mem hp.mem_nodes
  simp [Node.pieces] at hx
  rcases hx with ⟨-, -, rfl⟩ | ⟨-, rfl, -⟩
  · -- The callee is not the argument.
    have hnodup := hpids.nodup_children
    have heq : (⟨x⟩ : AnyNode) = ⟨arg⟩ := by
      refine hpids.eq_of_id (child_mem_nodes ?_) (child_mem_nodes ?_) hid.symm
      · simp [AnyNode.children, Node.children]
      · simp [AnyNode.children, Node.children]
    simp [AnyNode.children, Node.children, heq] at hnodup
  · rfl

/-- The conversion is reached from `x` through conversions that go, each directly inside the one
before. -/
structure Conversion.ChainedTo (unit : SourceUnit) (options : DetectOptions) (d : Conversion)
    (x : Expr) : Prop where
  mem : d.node ∈ AnyNode.nodes ⟨x⟩
  top : ∃ ancestors, ⟨⟨x⟩, ancestors⟩ ∈ AnyNode.visits ⟨unit.file⟩ [] ∧
    chainTop (unit.redundant options) d.id d.ancestors =
      chainTop (unit.redundant options) x.id ancestors

namespace Conversion.ChainedTo

theorem refl (hids : DistinctIds ⟨unit.file⟩) {d : Conversion} (hd : d ∈ unit.conversions options) :
    d.ChainedTo unit options d.expr :=
  ⟨self_mem_nodes _, d.ancestors, visit_of_conversion hids hd, rfl⟩

theorem step (hids : DistinctIds ⟨unit.file⟩) {d e : Conversion} {x : Expr}
    (h : d.ChainedTo unit options x) (hd : d ∈ unit.conversions options)
    (he : e ∈ unit.conversions options) (hde : e.expr = d.arg) : e.ChainedTo unit options x := by
  have hchild : e.node ∈ d.node.children := by
    rw [children_node, node, hde]
    simp
  obtain ⟨ancestors, hx, htop⟩ := h.top
  refine ⟨mem_nodes_trans h.mem (child_mem_nodes hchild), ancestors, hx, ?_⟩
  have hv : ⟨e.node, d.node :: d.ancestors⟩ ∈ AnyNode.visits ⟨unit.file⟩ [] := by
    refine mem_visits_trans (visit_of_conversion hids hd) (mem_visits_of_child hchild ?_)
    rw [visits_eq]
    exact List.mem_cons_self
  have hanc : e.ancestors = d.node :: d.ancestors :=
    congrArg Visit.ancestors (hids.visit_eq (visit_of_conversion hids he) hv rfl)
  have hid : d.arg.id = e.id := by rw [← hde]; rfl
  rw [← htop, hanc, node, expr, chainTop, hid]
  simp [redundant_of_conversion hd]

end Conversion.ChainedTo

theorem needsParens_of_chain (hids : DistinctIds ⟨unit.file⟩) (htok : HasTokens ⟨unit.file⟩)
    {x : Expr} {ctx : Ctx} (hx : Shows ⟨unit.file⟩ .plain ⟨x⟩ ctx) {d : Conversion}
    (hchain : d.ChainedTo unit options x) {k : Cut} (hk : unit.cut options d = .ok k)
    (hbare : k.remnant = .bare) :
    goesAway (unit.redundant options) d.arg = true ∨
      (d.arg.face fun _ => none).needsParens ctx = false := by
  obtain ⟨-, ⟨hgoes, -⟩ | ⟨-, trial, hrun, htrial⟩⟩ := cut_cases hk
  · exact Or.inl hgoes
  right
  obtain ⟨ancestors, hv, htop⟩ := hchain.top
  have hreq : trial.required = false := by
    cases h : trial.required with
    | false => rfl
    | true => simp [Cut.remnant, htrial, h] at hbare
  have harg : ⟨d.arg⟩ ∈ AnyNode.nodes ⟨x⟩ :=
    mem_nodes_trans hchain.mem (child_mem_nodes (by simp [Conversion.children_node]))
  rw [htop] at hrun
  unfold chainTop at hrun
  split at hrun
  · rename_i outer callee arg args spread rest
    split at hrun
    · -- `x` is itself an argument, and its slot asks for nothing.
      rename_i hcond
      simp only [Bool.and_eq_true, decide_eq_true_eq] at hcond
      rw [hx.ctx_of_arg hids hv hcond.1, Face.needsParens_plain]
    · exact needsParens_eq_false_of_trial hids htok harg hx hv hrun hreq
  · exact needsParens_eq_false_of_trial hids htok harg hx hv hrun hreq

end ConvSweep
