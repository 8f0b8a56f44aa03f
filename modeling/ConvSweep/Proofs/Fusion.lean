import ConvSweep.Proofs.Decisions

/-! # Operations that stay apart

A floating-point conversion between two arithmetic operations forces rounding in between. Of several
calls between the operations some may go, but never all of them.
-/

namespace ConvSweep

open AnyNode Detect

/-- `q` stands inside `x` with nothing around it but parentheses and calls of one argument. The calls
are listed from the outside in, by their ids and callees. -/
inductive Wraps : Expr → List (NodeId × Expr) → Expr → Prop
  | here (q : Expr) : Wraps q [] q
  | paren {id : NodeId} {x q : Expr} {calls : List (NodeId × Expr)} (h : Wraps x calls q) :
      Wraps (.paren id x) calls q
  | call {id : NodeId} {callee arg q : Expr} {spread : Bool} {calls : List (NodeId × Expr)}
      (h : Wraps arg calls q) : Wraps (.call id callee [arg] spread) ((id, callee) :: calls) q

namespace Wraps

variable {x q : Expr} {calls : List (NodeId × Expr)}

theorem unparen_eq (h : Wraps x [] q) : x.unparen = q.unparen := by
  generalize hnil : ([] : List (NodeId × Expr)) = calls at h
  induction h with
  | here q => rfl
  | paren _ ih => rw [Node.unparen, ih hnil]
  | call => cases hnil

theorem prune (h : Wraps x calls q) (plan : Plan) :
    Wraps (x.prune plan)
      ((calls.filter fun c => plan c.1 = none).map fun c => (c.1, c.2.prune plan))
      (q.prune plan) := by
  induction h with
  | here q => exact .here _
  | paren _ ih =>
    rw [Node.prune]
    exact .paren ih
  | @call id callee arg q spread calls _ ih =>
    rw [Node.prune]
    cases hid : plan id with
    | none => simpa [hid] using Wraps.call ih
    | some r =>
      cases r with
      | bare => simpa [hid] using ih
      | wrapped => simpa [hid] using Wraps.paren ih

end Wraps

variable {unit : SourceUnit} {options : DetectOptions}

theorem exists_call_stays (hids : DistinctIds ⟨unit.file⟩) (hfast : options.fastMath = false)
    {x q : Expr} {calls : List (NodeId × Expr)} (h : Wraps x calls q) {qid : NodeId} {l r : Expr}
    {op : BinaryOp} (hq : q = .binary qid l op r) (hop : op.isFloatArithmetic = true)
    {last : NodeId × Expr} (hlast : calls.getLast? = some last) {target : TypeEntry}
    (htarget : unit.info.typeOf last.2.id = some target) (hfloat : target.type.isFloating = true)
    {ancestors : List AnyNode} (hv : ⟨⟨x⟩, ancestors⟩ ∈ AnyNode.visits ⟨unit.file⟩ [])
    {p : AnyNode} (houter : outer? (unit.redundant options) ancestors = some p)
    (hp : isArithmetic p = true) : ∃ call ∈ calls, call.1 ∉ unit.redundant options := by
  induction h generalizing ancestors with
  | here q => cases hlast
  | @paren id x q calls h ih =>
    have hvx := visit_child hv (paren_mem_children id x)
    exact ih hq hlast hvx houter
  | @call id callee arg q spread calls h ih =>
    by_cases hid : id ∈ unit.redundant options
    · cases calls with
      | nil =>
        -- The innermost call: it keeps the two operations apart, so it cannot be redundant.
        obtain rfl : (id, callee) = last := by simpa using hlast
        obtain rfl := spread_eq_false hids hv hid
        obtain ⟨target', operand, hcallee, -, -, -, -, hapart⟩ := (mem_redundant_iff hids hv).mp hid
        rw [hcallee, Option.some.injEq] at htarget
        subst htarget
        have harg : arg.unparen = .binary qid l op r := by
          rw [h.unparen_eq, hq]
          rfl
        change outer? (scan unit.file unit.info options).redundant ancestors = some p at houter
        simp [hfast, keepsApart, hfloat, harg, hop, houter, hp] at hapart
      | cons c calls =>
        have hvarg := visit_child hv (arg_mem_children id callee arg spread)
        have houter' : outer? (unit.redundant options) (⟨.call id callee [arg] spread⟩ :: ancestors) =
            some p := by
          unfold outer? at houter ⊢
          simpa [List.find?_cons, hid] using houter
        obtain ⟨call, hcall, hstays⟩ := ih hq (by simpa using hlast) hvarg houter'
        exact ⟨call, List.mem_cons_of_mem _ hcall, hstays⟩
    · exact ⟨(id, callee), List.mem_cons_self, hid⟩

/-- Between an arithmetic operation and arithmetic in one of its operands, with only parentheses and
calls in between of which the innermost is to a floating-point type, some call is not reported: every
removal that is found takes another conversion out. Whatever removals are applied, all or those that
other configurations agree on, that call stays between the two operations. -/
theorem fusion_barrier_stays (hids : DistinctIds ⟨unit.file⟩) (hfast : options.fastMath = false)
    {p : AnyNode} (hp : p ∈ AnyNode.nodes ⟨unit.file⟩) (harith : isArithmetic p = true)
    {x : Expr} (hx : ⟨x⟩ ∈ p.children) {calls : List (NodeId × Expr)} {q : Expr}
    (hpath : Wraps x calls q) {qid : NodeId} {l r : Expr} {op : BinaryOp}
    (hq : q = .binary qid l op r) (hop : op.isFloatArithmetic = true) {last : NodeId × Expr}
    (hlast : calls.getLast? = some last) {target : TypeEntry}
    (htarget : unit.info.typeOf last.2.id = some target)
    (hfloat : target.type.isFloating = true) :
    ∃ call ∈ calls,
      (∀ found, detect unit options = .ok found → ∀ r ∈ found.removals.toList,
        ∃ c ∈ unit.conversions options, c.id ≠ call.1 ∧
          ∃ k, unit.cut options c = .ok k ∧ k.removal = r) ∧
      ∀ removals : RemovalSet, unit.plan options removals call.1 = none ∧
        ∃ calls', Wraps (x.prune (unit.plan options removals)) calls'
            (q.prune (unit.plan options removals)) ∧
          (call.1, call.2.prune (unit.plan options removals)) ∈ calls' := by
  obtain ⟨ancestors, hvp⟩ := exists_visit [] hp
  have hvx := visit_child hvp hx
  have houter : outer? (unit.redundant options) (p :: ancestors) = some p := by
    unfold outer?
    rw [List.find?_cons]
    obtain ⟨p⟩ := p
    cases p <;> first | rfl | cases harith
  obtain ⟨call, hcall, hstays⟩ :=
    exists_call_stays hids hfast hpath hq hop hlast htarget hfloat hvx houter harith
  refine ⟨call, hcall, fun found h r hr => ?_, fun removals => ?_⟩
  · obtain ⟨c, hc, hk⟩ := (mem_removals_iff h).mp hr
    refine ⟨c, hc, ?_, hk⟩
    intro hid
    exact hstays (hid ▸ redundant_of_conversion hc)
  · have hplan : unit.plan options removals call.1 = none := by
      by_contra h
      exact hstays (mem_redundant_of_plan hids h)
    refine ⟨hplan, _, hpath.prune _, List.mem_map.mpr ⟨call, ?_, rfl⟩⟩
    exact List.mem_filter.mpr ⟨hcall, by simpa using hplan⟩

/-- `_ = a + float64(float64(b * c))`: a product that is rounded twice before it is added. -/
def roundedProduct : SourceUnit := .ofBody
  [.assign 1 [.ident 2 "_"] .assign
    [.binary 3 (.ident 4 "a") .add (.call 5 (.ident 6 "float64")
      [.call 7 (.ident 8 "float64") [.binary 9 (.ident 10 "b") .mul (.ident 11 "c")] false] false)]]
  [(6, ⟨.type, .basic .float64⟩), (8, ⟨.type, .basic .float64⟩), (5, ⟨.value, .basic .float64⟩),
    (7, ⟨.value, .basic .float64⟩), (9, ⟨.value, .basic .float64⟩)]

theorem distinctIds_roundedProduct : DistinctIds ⟨roundedProduct.file⟩ := by decide +kernel

theorem removals_roundedProduct :
    ∃ found, detect roundedProduct .default = .ok found ∧
      found.removals = ⟨[⟨38, [⟨31, 39⟩, ⟨53, 54⟩]⟩], List.pairwise_singleton _ _⟩ :=
  exists_found _ (by decide +kernel)

/-- One of the two conversions goes, the other one stays. -/
theorem roundedProduct_keeps_barrier :
    (∃ found, detect roundedProduct .default = .ok found ∧
      ⟨38, [⟨31, 39⟩, ⟨53, 54⟩]⟩ ∈ found.removals.toList) ∧
    ∃ call ∈ [(5, Node.ident 6 "float64"), (7, Node.ident 8 "float64")],
      ∀ removals : RemovalSet, roundedProduct.plan .default removals call.1 = none := by
  constructor
  · obtain ⟨found, h, hfound⟩ := removals_roundedProduct
    exact ⟨found, h, by simp [hfound]⟩
  let x : Expr := .call 5 (.ident 6 "float64")
    [.call 7 (.ident 8 "float64") [.binary 9 (.ident 10 "b") .mul (.ident 11 "c")] false] false
  have hp : ⟨.binary 3 (.ident 4 "a") .add x⟩ ∈ AnyNode.nodes ⟨roundedProduct.file⟩ :=
    mem_nodes_of_below? [0, 1, 0, 1] rfl
  have hx : ⟨x⟩ ∈ AnyNode.children ⟨.binary 3 (.ident 4 "a") .add x⟩ := by
    simp [AnyNode.children, Node.children, Slot.one]
  have hfast : DetectOptions.default.fastMath = false := rfl
  obtain ⟨call, hcall, -, hplan⟩ := fusion_barrier_stays distinctIds_roundedProduct hfast hp rfl
    hx (.call (.call (.here _))) rfl rfl rfl rfl rfl
  exact ⟨call, hcall, fun removals => (hplan removals).1⟩

end ConvSweep
