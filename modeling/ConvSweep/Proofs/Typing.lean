import ConvSweep.Proofs.Identity
import ConvSweep.Proofs.Residue

/-! # Types of what is left

Whatever conversions go, a slot is left with an expression of the type that it had.
-/

namespace ConvSweep

open AnyNode Detect

/-- Every call of a type is recorded with the type that it converts to. -/
def SourceUnit.ConversionsTyped (unit : SourceUnit) : Prop :=
  ∀ id callee arg spread target, ⟨.call id callee [arg] spread⟩ ∈ AnyNode.nodes ⟨unit.file⟩ →
    unit.info.typeOf callee.id = some target → target.isType = true →
    ∃ entry, unit.info.typeOf id = some entry ∧ identical entry.type target.type = true

/-- A call of a type: its id, its argument and the entry of the type. -/
def AnyNode.typeCall? (info : TypeInfo) : AnyNode → Option (NodeId × Expr × TypeEntry)
  | ⟨.call call callee [arg] _⟩ =>
    ((info.typeOf callee.id).filter (·.isType)).map fun target => (call, arg, target)
  | _ => none

theorem forall_typeCall_iff {unit : SourceUnit} {P : NodeId → Expr → TypeEntry → Prop} :
    (∀ id callee arg spread target, ⟨.call id callee [arg] spread⟩ ∈ AnyNode.nodes ⟨unit.file⟩ →
      unit.info.typeOf callee.id = some target → target.isType = true → P id arg target) ↔
      ∀ c ∈ (AnyNode.nodes ⟨unit.file⟩).filterMap (typeCall? unit.info), P c.1 c.2.1 c.2.2 := by
  constructor
  · intro h c hc
    obtain ⟨n, hn, hcall⟩ := List.mem_filterMap.mp hc
    unfold typeCall? at hcall
    split at hcall
    · rename_i id callee arg spread
      simp only [Option.map_eq_some_iff, Option.filter_eq_some_iff] at hcall
      obtain ⟨target, ⟨hcallee, htype⟩, rfl⟩ := hcall
      exact h id callee arg spread target hn hcallee htype
    · cases hcall
  · intro h id callee arg spread target hmem hcallee htype
    refine h (id, arg, target) (List.mem_filterMap.mpr ⟨_, hmem, ?_⟩)
    simp [typeCall?, hcallee, htype]

variable {unit : SourceUnit} {options : DetectOptions} {removals : RemovalSet}

theorem residue_typed (hids : DistinctIds ⟨unit.file⟩) (htyped : unit.ConversionsTyped) {e : Expr}
    (he : ⟨e⟩ ∈ AnyNode.nodes ⟨unit.file⟩)
    (hgoes : e.remnant? (unit.plan options removals) ≠ none) :
    (e.residue (unit.plan options removals)).isUntyped unit.info options.untyped = false ∧
    ∃ before after, unit.info.typeOf e.id = some before ∧
      unit.info.typeOf (e.residue (unit.plan options removals)).id = some after ∧
      identical after.type before.type = true := by
  induction e using Node.residue_induct (unit.plan options removals) with
  | stays e h => exact (hgoes h).elim
  | goes id callee arg spread hid ih =>
    obtain ⟨ancestors, target, operand, hcallee, htype, harg, hsame, huntyped, -⟩ :=
      redundant_of_plan hids he hid
    obtain ⟨entry, hentry, hconv⟩ := htyped id callee arg spread target he hcallee htype
    have hoperand : identical operand.type entry.type = true :=
      identical_symm (identical_trans hconv hsame)
    rw [Node.residue_call hid]
    by_cases hr : arg.remnant? (unit.plan options removals) = none
    · rw [Node.residue_eq_self hr]
      exact ⟨huntyped, entry, operand, hentry, harg, hoperand⟩
    · have hmem : ⟨arg⟩ ∈ AnyNode.nodes ⟨unit.file⟩ :=
        mem_nodes_trans he (child_mem_nodes (arg_mem_children ..))
      obtain ⟨hresidue, before, after, hbefore, hafter, hlink⟩ := ih hmem hr
      rw [harg, Option.some.injEq] at hbefore
      subst hbefore
      exact ⟨hresidue, entry, after, hentry, hafter, identical_trans hlink hoperand⟩

/-- Every node that stays, whatever conversions go, comes from a node of the file with the same slots.
Where such a slot held a conversion that goes, it is left with an expression inside it, perhaps in
parentheses, that has the type of the conversion and is not untyped. -/
theorem slot_types_kept (hids : DistinctIds ⟨unit.file⟩) (htyped : unit.ConversionsTyped)
    {m : AnyNode} (hm : m ∈ AnyNode.nodes ⟨unit.without options removals⟩)
    (hstays : unit.plan options removals m.id = none) :
    ∃ n ∈ AnyNode.nodes ⟨unit.file⟩, n.id = m.id ∧ n.prune (unit.plan options removals) = m ∧
      m.node.children =
        n.node.children.map (fun s => (s.1, s.2.prune (unit.plan options removals))) ∧
      ∀ s, ∀ e : Expr, (s, ⟨e⟩) ∈ n.node.children →
        e.remnant? (unit.plan options removals) ≠ none →
        ∃ left : Expr, ⟨left⟩ ∈ AnyNode.nodes ⟨e⟩ ∧
          left.remnant? (unit.plan options removals) = none ∧
          (e.prune (unit.plan options removals)).uncover (unit.plan options removals) =
            left.prune (unit.plan options removals) ∧
          left.isUntyped unit.info options.untyped = false ∧
          ∃ before after, unit.info.typeOf e.id = some before ∧
            unit.info.typeOf left.id = some after ∧
            identical after.type before.type = true := by
  obtain ⟨as, hv⟩ := exists_visit [] hm
  rcases exists_visit_of_without hv with ⟨id, x, rfl, hid⟩ | ⟨⟨n, bs⟩, hw, hn, heq⟩
  · exact (hid hstays).elim
  · cases heq
    have hmem : n ∈ AnyNode.nodes ⟨unit.file⟩ := mem_nodes_of_visit hw
    refine ⟨n, hmem, (Node.id_prune hn).symm, rfl, Node.children_prune hn, ?_⟩
    intro s e hslot hgoes
    have he : ⟨e⟩ ∈ AnyNode.nodes ⟨unit.file⟩ :=
      mem_nodes_trans hmem (child_mem_nodes (List.mem_map.mpr ⟨(s, ⟨e⟩), hslot, rfl⟩))
    exact ⟨e.residue (unit.plan options removals), e.residue_mem_nodes _, e.remnant?_residue _,
      uncover_prune_of_mem hids he, residue_typed hids htyped he hgoes⟩

/-- `_ = -int(int(-x))` with both conversions recorded. -/
def recordedChain : SourceUnit := .ofBody
  [.assign 1 [.ident 2 "_"] .assign
    [.unary 3 .neg (.call 4 (.ident 5 "int")
      [.call 6 (.ident 7 "int") [.unary 8 .neg (.ident 9 "x")] false] false)]]
  [(5, ⟨.type, .basic .int⟩), (7, ⟨.type, .basic .int⟩), (4, ⟨.value, .basic .int⟩),
    (6, ⟨.value, .basic .int⟩), (8, ⟨.value, .basic .int⟩)]

theorem distinctIds_recordedChain : DistinctIds ⟨recordedChain.file⟩ := by decide +kernel

theorem removals_recordedChain :
    ∃ found, detect recordedChain .default = .ok found ∧
      found.removals = ⟨[⟨31, [⟨28, 32⟩, ⟨39, 40⟩]⟩, ⟨35, [⟨32, 35⟩]⟩], by decide⟩ :=
  exists_found _ (by decide +kernel)

/-- With both conversions gone, the outer minus is left with the inner one in parentheses, which is an
`int` like the conversion that it replaces. -/
theorem recordedChain_slot_typed :
    ∃ found, detect recordedChain .default = .ok found ∧
      ⟨.unary 3 .neg (.paren 6 (.unary 8 .neg (.ident 9 "x")))⟩ ∈
        AnyNode.nodes ⟨recordedChain.without .default found.removals⟩ ∧
      ∃ left : Expr, left.isUntyped recordedChain.info .permissive = false ∧
        left.prune (recordedChain.plan .default found.removals) = .unary 8 .neg (.ident 9 "x") ∧
        ∃ after, recordedChain.info.typeOf left.id = some after ∧
          identical after.type (.basic .int) = true := by
  obtain ⟨found, h, hfound⟩ := removals_recordedChain
  have hplan : recordedChain.plan .default found.removals 3 = none ∧
      recordedChain.plan .default found.removals 4 = some .bare ∧
      recordedChain.plan .default found.removals 6 = some .wrapped := by
    rw [hfound]
    decide +kernel
  have hwithout : recordedChain.without .default found.removals =
      (SourceUnit.ofBody [.assign 1 [.ident 2 "_"] .assign
        [.unary 3 .neg (.paren 6 (.unary 8 .neg (.ident 9 "x")))]] []).file := by
    rw [SourceUnit.without]
    generalize recordedChain.plan .default found.removals = plan at hplan
    simp [recordedChain, SourceUnit.ofBody, SourceUnit.ofFile, Node.prune, hplan]
  have hm : ⟨.unary 3 .neg (.paren 6 (.unary 8 .neg (.ident 9 "x")))⟩ ∈
      AnyNode.nodes ⟨recordedChain.without .default found.removals⟩ := by
    rw [hwithout]
    exact mem_nodes_of_below? [0, 1, 0, 1] rfl
  let inner : Expr := .call 6 (.ident 7 "int") [.unary 8 .neg (.ident 9 "x")] false
  let outer : Expr := .call 4 (.ident 5 "int") [inner] false
  have htyped : recordedChain.ConversionsTyped := by
    have hcalls : (AnyNode.nodes ⟨recordedChain.file⟩).filterMap (typeCall? recordedChain.info) =
        [(4, inner, ⟨.type, .basic .int⟩), (6, .unary 8 .neg (.ident 9 "x"), ⟨.type, .basic .int⟩)] := by
      cbv
    refine forall_typeCall_iff.mpr ?_
    rw [hcalls, List.forall_mem_cons, List.forall_mem_singleton]
    exact ⟨⟨_, rfl, by decide +kernel⟩, ⟨_, rfl, by decide +kernel⟩⟩
  have hminus : ⟨.unary 3 .neg outer⟩ ∈ AnyNode.nodes ⟨recordedChain.file⟩ :=
    mem_nodes_of_below? [0, 1, 0, 1] rfl
  obtain ⟨n, hn, hid, -, -, hslots⟩ :=
    slot_types_kept distinctIds_recordedChain htyped hm hplan.1
  obtain rfl := distinctIds_recordedChain.eq_of_id hminus hn hid.symm
  obtain ⟨left, -, -, hleft, huntyped, before, after, hbefore, hafter, hsame⟩ :=
    hslots ⟨"X", none⟩ outer List.mem_cons_self (by simp [outer, Node.remnant?, hplan.2.1])
  refine ⟨found, h, hm, left, huntyped, ?_, after, hafter, ?_⟩
  · rw [← hleft]
    simp [outer, inner, Node.prune, hplan, Node.uncover]
  · cases hbefore
    exact hsame

end ConvSweep
