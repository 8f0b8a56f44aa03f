import ConvSweep.Proofs.ChainTrials
import ConvSweep.Proofs.Target

/-! # Wrappers

A wrapper `W(C)` converts a conversion `C` to the type that it has already. Detection finds every
wrapper redundant, and decides on all else as it does without the wrappers.
-/

namespace ConvSweep

open AnyNode Detect

/-- A conversion `W(C)` by a name, where `C` is a call of one argument. -/
structure Wrapper where
  /-- The id of `W(C)`. -/
  call : NodeId
  name : Ident
  /-- The id of `C`. -/
  inner : NodeId
  callee : Expr
  arg : Expr
  spread : Bool

namespace Wrapper

/-- The call inside. -/
def innerExpr (w : Wrapper) : Expr := .call w.inner w.callee [w.arg] w.spread

def expr (w : Wrapper) : Expr :=
  .call w.call (.ident w.name.id w.name.name) [w.innerExpr] false

/-- The checker knows `C` as a call of a type, `W` as a type and `W(C)` as a value, all with types that
are identical to that of `C`. -/
def Recorded (info : TypeInfo) (w : Wrapper) : Prop :=
  ∃ inner callee name result : TypeEntry, info.typeOf w.inner = some inner ∧
    (info.typeOf w.callee.id = some callee ∧ callee.isType = true ∧
      identical callee.type inner.type = true) ∧
    (info.typeOf w.name.id = some name ∧ name.isType = true ∧
      identical name.type inner.type = true) ∧
    info.typeOf w.call = some result ∧ result.isType = false ∧
      identical result.type inner.type = true

end Wrapper

/-- Takes the wrappers out. -/
def Plan.dropping (ws : List Wrapper) : Plan :=
  fun id => if id ∈ ws.map (·.call) then some .bare else none

theorem Plan.dropping_call {ws : List Wrapper} {w : Wrapper} (hw : w ∈ ws) :
    Plan.dropping ws w.call = some .bare := if_pos (List.mem_map_of_mem hw)

/-- The second file is the first one, with wrappers put around some conversions. The checker knows the
same of both, and the wrappers as such. -/
structure Wrapping (ws : List Wrapper) (info : TypeInfo) (plain : File) (info' : TypeInfo)
    (wrapped : File) : Prop where
  unwrapped : wrapped.prune (.dropping ws) = plain
  ids : DistinctIds ⟨wrapped⟩
  mem : ∀ w ∈ ws, ⟨w.expr⟩ ∈ AnyNode.nodes ⟨wrapped⟩
  agrees : info.AgreesOn info' ⟨plain⟩
  recorded : ∀ w ∈ ws, w.Recorded info'
  noBuiltin : ∀ w ∈ ws, info'.builtinOf (.ident w.name.id w.name.name) = none

/-- No callee of a conversion has a conversion inside or names a built-in function. -/
def PlainCallees (info : TypeInfo) (file : File) : Prop :=
  ∀ id callee arg spread target, ⟨.call id callee [arg] spread⟩ ∈ AnyNode.nodes ⟨file⟩ →
    info.typeOf callee.id = some target → target.isType = true →
    info.builtinOf callee = none ∧
      ∀ c f a s entry, ⟨.call c f [a] s⟩ ∈ AnyNode.nodes ⟨callee⟩ →
        info.typeOf f.id = some entry → entry.isType = false

def AnyNode.isConversion (info : TypeInfo) : AnyNode → Bool
  | ⟨.call _ callee [_] _⟩ => (info.typeOf callee.id).any (·.isType)
  | _ => false

/-- Whether the node is no conversion, or one with a callee as `PlainCallees` asks. -/
def AnyNode.calleeIsPlain (info : TypeInfo) : AnyNode → Bool
  | ⟨.call id callee [arg] spread⟩ =>
    !AnyNode.isConversion info ⟨.call id callee [arg] spread⟩ ||
      (info.builtinOf callee).isNone && (AnyNode.nodes ⟨callee⟩).all (!·.isConversion info)
  | _ => true

theorem plainCallees_of_all {info : TypeInfo} {file : File}
    (h : (AnyNode.nodes ⟨file⟩).all (·.calleeIsPlain info) = true) : PlainCallees info file := by
  intro id callee arg spread target hmem htarget htype
  have hplain := List.all_eq_true.mp h _ hmem
  simp only [AnyNode.calleeIsPlain, AnyNode.isConversion, htarget, Option.any_some, htype,
    Bool.not_true, Bool.false_or, Bool.and_eq_true, Option.isNone_iff_eq_none, List.all_eq_true,
    Bool.not_eq_true'] at hplain
  refine ⟨hplain.1, fun c f a s entry hc hentry => ?_⟩
  simpa [AnyNode.isConversion, hentry] using hplain.2 _ hc

theorem PlainCallees.calleesStay {unit : SourceUnit} {options : DetectOptions}
    (h : PlainCallees unit.info unit.file) (hids : DistinctIds ⟨unit.file⟩) (removals : RemovalSet) :
    unit.file.CalleesStay (unit.plan options removals) := by
  intro id callee arg spread hmem hid x hx
  by_contra hgoes
  obtain ⟨-, target, -, htarget, htype, -⟩ := redundant_of_plan hids hmem hid
  have hxmem := mem_nodes_trans hmem (mem_nodes_of_child (callee_mem_children ..) hx)
  obtain ⟨c, f, a, rfl⟩ := call_of_redundant hids hxmem (mem_redundant_of_plan hids hgoes)
  obtain ⟨-, entry, -, hentry, hconv, -⟩ := redundant_of_plan hids hxmem hgoes
  have hinside := (h _ _ _ _ target hmem htarget htype).2 _ _ _ _ entry hx hentry
  rw [hconv] at hinside
  cases hinside

namespace Wrapping

variable {ws : List Wrapper} {info info' : TypeInfo} {plain wrapped : File}

theorem prune_file (h : Wrapping ws info plain info' wrapped) :
    AnyNode.prune (.dropping ws) ⟨wrapped⟩ = ⟨plain⟩ := by
  rw [AnyNode.prune, h.unwrapped]

theorem exists_wrapper (h : Wrapping ws info plain info' wrapped) {e : Expr}
    (he : ⟨e⟩ ∈ AnyNode.nodes ⟨wrapped⟩) (hgoes : e.remnant? (.dropping ws) ≠ none) :
    ∃ w ∈ ws, e = w.expr := by
  obtain ⟨id, callee, arg, spread, rfl, hid⟩ := Node.exists_of_goes hgoes
  have hmem : id ∈ ws.map (·.call) := by
    by_contra hid'
    exact hid (if_neg hid')
  obtain ⟨w, hw, rfl⟩ := List.mem_map.mp hmem
  cases h.ids.eq_of_id he (h.mem w hw) rfl
  exact ⟨w, hw, rfl⟩

theorem unwraps (h : Wrapping ws info plain info' wrapped) :
    (Plan.dropping ws).Unwraps ⟨wrapped⟩ := by
  intro id callee arg spread hmem hid
  obtain ⟨w, hw, heq⟩ := h.exists_wrapper hmem hid
  cases heq
  exact ⟨Plan.dropping_call hw, ⟨_, _, rfl⟩, _, _, _, _, rfl⟩

theorem remnant?_expr {w : Wrapper} (hw : w ∈ ws) : w.expr.remnant? (.dropping ws) ≠ none := by
  simp [Wrapper.expr, Node.remnant?, Plan.dropping_call hw]

theorem prune_expr {w : Wrapper} (hw : w ∈ ws) :
    w.expr.prune (.dropping ws) = w.innerExpr.prune (.dropping ws) := by
  simp only [Wrapper.expr, Node.prune, Plan.dropping_call hw]

theorem inner_mem (h : Wrapping ws info plain info' wrapped) {w : Wrapper} (hw : w ∈ ws) :
    ⟨w.innerExpr⟩ ∈ AnyNode.nodes ⟨wrapped⟩ :=
  mem_nodes_trans (h.mem w hw) (child_mem_nodes (arg_mem_children ..))

theorem exists_residue (h : Wrapping ws info plain info' wrapped) {e : Expr}
    (he : ⟨e⟩ ∈ AnyNode.nodes ⟨wrapped⟩) (hgoes : e.remnant? (.dropping ws) ≠ none) :
    ∃ w ∈ ws, e.residue (.dropping ws) = w.innerExpr := by
  induction e using Node.residue_induct (.dropping ws) with
  | stays e hr => exact (hgoes hr).elim
  | goes id callee arg spread hid ih =>
    obtain ⟨w, hw, heq⟩ := h.exists_wrapper he hgoes
    cases heq
    rw [Node.residue_call hid]
    by_cases hr : w.innerExpr.remnant? (.dropping ws) = none
    · exact ⟨w, hw, Node.residue_eq_self hr⟩
    · exact ih (mem_nodes_trans he (child_mem_nodes (arg_mem_children ..))) hr

theorem typed_wrapper (h : Wrapping ws info plain info' wrapped) {e : Expr}
    (he : ⟨e⟩ ∈ AnyNode.nodes ⟨wrapped⟩) (hgoes : e.remnant? (.dropping ws) ≠ none) :
    ∃ result entry, info'.typeOf e.id = some result ∧ result.isType = false ∧
      info'.typeOf (e.residue (.dropping ws)).id = some entry ∧
      identical result.type entry.type = true := by
  induction e using Node.residue_induct (.dropping ws) with
  | stays e hr => exact (hgoes hr).elim
  | goes id callee arg spread hid ih =>
    obtain ⟨w, hw, heq⟩ := h.exists_wrapper he hgoes
    cases heq
    obtain ⟨inner, -, -, result, hinner, -, -, hresult, hvalue, hsame⟩ := h.recorded w hw
    rw [Node.residue_call hid]
    by_cases hr : w.innerExpr.remnant? (.dropping ws) = none
    · rw [Node.residue_eq_self hr]
      exact ⟨result, inner, hresult, hvalue, hinner, hsame⟩
    · obtain ⟨result', entry, hresult', -, hentry, hsame'⟩ :=
        ih (mem_nodes_trans he (child_mem_nodes (arg_mem_children ..))) hr
      cases Option.some.inj (hinner.symm.trans hresult')
      exact ⟨result, entry, hresult, hvalue, hentry, identical_trans hsame hsame'⟩

theorem stays_of_isType (h : Wrapping ws info plain info' wrapped) {e : Expr}
    (he : ⟨e⟩ ∈ AnyNode.nodes ⟨wrapped⟩) {target : TypeEntry}
    (htarget : info'.typeOf e.id = some target) (htype : target.isType = true) :
    e.remnant? (.dropping ws) = none := by
  by_contra hgoes
  obtain ⟨result, -, hresult, hvalue, -⟩ := h.typed_wrapper he hgoes
  cases Option.some.inj (htarget.symm.trans hresult)
  rw [hvalue] at htype
  cases htype

theorem typeOf_stays (h : Wrapping ws info plain info' wrapped) {e : Expr}
    (hleft : ⟨e.prune (.dropping ws)⟩ ∈ AnyNode.nodes ⟨plain⟩)
    (hr : e.remnant? (.dropping ws) = none) :
    info.typeOf (e.prune (.dropping ws)).id = info'.typeOf e.id := by
  have hagrees := h.agrees.types _ hleft
  rw [AnyNode.id] at hagrees
  rw [← hagrees, Node.id_prune hr]

theorem call_mem_plain (h : Wrapping ws info plain info' wrapped) {id : NodeId} {callee : Expr}
    {args : List Expr} {spread : Bool}
    (hmem : ⟨.call id callee args spread⟩ ∈ AnyNode.nodes ⟨wrapped⟩) :
    ⟨(Node.call id callee args spread).prune (.dropping ws)⟩ ∈ AnyNode.nodes ⟨plain⟩ := by
  rw [← h.prune_file]
  exact h.unwraps.mem_nodes_prune hmem rfl

theorem callee_mem_plain (h : Wrapping ws info plain info' wrapped) {id : NodeId} {callee : Expr}
    {args : List Expr} {spread : Bool}
    (hmem : ⟨.call id callee args spread⟩ ∈ AnyNode.nodes ⟨wrapped⟩)
    (hr : (Node.call id callee args spread).remnant? (.dropping ws) = none) :
    ⟨callee.prune (.dropping ws)⟩ ∈ AnyNode.nodes ⟨plain⟩ :=
  mem_nodes_trans (h.call_mem_plain hmem)
    (child_mem_nodes (prune_mem_children (n := ⟨.call id callee args spread⟩) (m := ⟨callee⟩) hr
      (callee_mem_children ..)))

theorem exists_left (h : Wrapping ws info plain info' wrapped) {e : Expr}
    (he : ⟨e⟩ ∈ AnyNode.nodes ⟨wrapped⟩) (hgoes : e.remnant? (.dropping ws) ≠ none) :
    ∃ w ∈ ws, ∃ target, e.residue (.dropping ws) = w.innerExpr ∧
      e.prune (.dropping ws) = .call w.inner (w.callee.prune (.dropping ws))
        [w.arg.prune (.dropping ws)] w.spread ∧
      ⟨e.prune (.dropping ws)⟩ ∈ AnyNode.nodes ⟨plain⟩ ∧
      info.typeOf (w.callee.prune (.dropping ws)).id = some target ∧ target.isType = true := by
  obtain ⟨w, hw, hres⟩ := h.exists_residue he hgoes
  have hmem : ⟨w.innerExpr⟩ ∈ AnyNode.nodes ⟨wrapped⟩ :=
    mem_nodes_trans he (hres ▸ Node.residue_mem_nodes _ e)
  have hr : w.innerExpr.remnant? (.dropping ws) = none := hres ▸ Node.remnant?_residue _ e
  have hprune : e.prune (.dropping ws) = .call w.inner (w.callee.prune (.dropping ws))
      [w.arg.prune (.dropping ws)] w.spread := by
    rw [(h.unwraps.of_mem he).prune_residue, hres, Wrapper.innerExpr, Node.prune_call hr]
    rfl
  obtain ⟨-, target, -, -, -, ⟨htarget, htype, -⟩, -⟩ := h.recorded w hw
  have hcallee : ⟨w.callee⟩ ∈ AnyNode.nodes ⟨wrapped⟩ :=
    mem_nodes_trans hmem (child_mem_nodes (callee_mem_children ..))
  have hstays := h.stays_of_isType hcallee htarget htype
  refine ⟨w, hw, target, hres, hprune, ?_, ?_, htype⟩
  · obtain ⟨id, callee, arg, spread, rfl, -⟩ := Node.exists_of_goes hgoes
    exact h.call_mem_plain he
  · rw [h.typeOf_stays (h.callee_mem_plain hmem hr) hstays, htarget]

/-! ## Untyped values -/

theorem isUntypedPermissive_call {info : TypeInfo} {callee : Expr} (h : info.builtinOf callee = none)
    (id : NodeId) (arg : Expr) (spread : Bool) :
    (Node.call id callee [arg] spread).isUntypedPermissive info = false := by
  simp [Node.isUntypedPermissive, h]

theorem isUntyped_call {info : TypeInfo} {callee : Expr} (h : info.builtinOf callee = none)
    (mode : UntypedMode) (id : NodeId) (arg : Expr) (spread : Bool) :
    (Node.call id callee [arg] spread).isUntyped info mode = false := by
  cases mode with
  | permissive => exact isUntypedPermissive_call h id arg spread
  | strict => simp [Node.isUntyped, Node.isUntypedStrict]

theorem isUntyped_prune (h : Wrapping ws info plain info' wrapped) (hcallees : PlainCallees info plain)
    {e : Expr} (he : ⟨e⟩ ∈ AnyNode.nodes ⟨wrapped⟩)
    (hleft : ⟨e.prune (.dropping ws)⟩ ∈ AnyNode.nodes ⟨plain⟩) (mode : UntypedMode) :
    (e.prune (.dropping ws)).isUntyped info mode = e.isUntyped info' mode := by
  have hu := h.unwraps.of_mem he
  have hagrees := h.agrees.of_mem hleft
  cases mode with
  | strict => exact hu.isUntypedStrict_prune hagrees
  | permissive =>
    refine hu.isUntypedPermissive_prune hagrees fun x hx hgoes => ?_
    have hxw := mem_nodes_trans he hx
    obtain ⟨w, hw, rfl⟩ := h.exists_wrapper hxw hgoes
    obtain ⟨v, -, target, -, hprune, hmem, htarget, htype⟩ := h.exists_left hxw hgoes
    rw [hprune] at hmem ⊢
    obtain ⟨hbuiltin, -⟩ := hcallees _ _ _ _ target hmem htarget htype
    have hname := h.noBuiltin w hw
    exact ⟨isUntypedPermissive_call hbuiltin _ _ _, isUntypedPermissive_call hname _ _ _⟩

theorem isUntyped_inner (h : Wrapping ws info plain info' wrapped) (hcallees : PlainCallees info plain)
    {w : Wrapper} (hw : w ∈ ws) (mode : UntypedMode) : w.innerExpr.isUntyped info' mode = false := by
  have hmem := h.inner_mem hw
  rw [← h.isUntyped_prune hcallees hmem (h.call_mem_plain hmem), ← prune_expr hw]
  obtain ⟨v, -, target, -, hprune, hleft, htarget, htype⟩ :=
    h.exists_left (h.mem w hw) (remnant?_expr hw)
  rw [hprune] at hleft ⊢
  exact isUntyped_call (hcallees _ _ _ _ target hleft htarget htype).1 ..

/-! ## Decisions -/

theorem identical_iff (h : Wrapping ws info plain info' wrapped) {e : Expr}
    (he : ⟨e⟩ ∈ AnyNode.nodes ⟨wrapped⟩)
    (hleft : ⟨e.prune (.dropping ws)⟩ ∈ AnyNode.nodes ⟨plain⟩) (target : GoType) :
    (∃ operand, info.typeOf (e.prune (.dropping ws)).id = some operand ∧
      identical target operand.type = true) ↔
    ∃ operand, info'.typeOf e.id = some operand ∧ identical target operand.type = true := by
  by_cases hr : e.remnant? (.dropping ws) = none
  · rw [h.typeOf_stays hleft hr]
  · obtain ⟨result, entry, hresult, -, hentry, hsame⟩ := h.typed_wrapper he hr
    have hagrees := h.agrees.types _ hleft
    rw [AnyNode.id] at hagrees
    rw [← hagrees, (h.unwraps.of_mem he).id_prune_eq, hentry, hresult]
    simp only [Option.some.injEq, exists_eq_left']
    exact ⟨fun hid => identical_trans hid (identical_symm hsame), fun hid => identical_trans hid hsame⟩

theorem isType_iff (h : Wrapping ws info plain info' wrapped) (hcallees : PlainCallees info plain)
    {id : NodeId} {callee arg : Expr} {spread : Bool}
    (hmem : ⟨.call id callee [arg] spread⟩ ∈ AnyNode.nodes ⟨wrapped⟩)
    (hr : (Node.call id callee [arg] spread).remnant? (.dropping ws) = none) {target : TypeEntry}
    (htype : target.isType = true) :
    info.typeOf (callee.prune (.dropping ws)).id = some target ↔
      info'.typeOf callee.id = some target := by
  have hcallee : ⟨callee⟩ ∈ AnyNode.nodes ⟨wrapped⟩ :=
    mem_nodes_trans hmem (child_mem_nodes (callee_mem_children ..))
  have hleft := h.callee_mem_plain hmem hr
  by_cases hstays : callee.remnant? (.dropping ws) = none
  · rw [h.typeOf_stays hleft hstays]
  · constructor
    · -- The callee would have a conversion inside.
      intro htarget
      obtain ⟨w, -, entry, -, hprune, -, hentry, hconv⟩ := h.exists_left hcallee hstays
      have hcall := h.call_mem_plain hmem
      rw [Node.prune_call hr, hprune] at hcall
      rw [hprune] at htarget
      have hinside := (hcallees _ _ _ _ target hcall htarget htype).2 _ _ _ _ entry
        (self_mem_nodes _) hentry
      rw [hconv] at hinside
      cases hinside
    · intro htarget
      exact (hstays (h.stays_of_isType hcallee htarget htype)).elim

end Wrapping

theorem Plan.Unwraps.isArithmetic_prune {plan : Plan} {n : AnyNode} (h : plan.Unwraps n) :
    isArithmetic (n.prune plan) = isArithmetic n := by
  obtain ⟨n⟩ := n
  cases n
  case call id callee args spread =>
    obtain ⟨c, f, as, s, hprune⟩ := h.exists_prune_call
    simp [AnyNode.prune, hprune, isArithmetic]
  all_goals simp [AnyNode.prune, Node.prune, isArithmetic]

theorem Plan.Unwraps.keepsApart_prune {plan : Plan} {redundant rest : List NodeId}
    {ancestors : List AnyNode} (hancestors : ∀ a ∈ ancestors, plan.Unwraps a)
    (h : ∀ a ∈ ancestors, a.id ∈ redundant ↔ a.node.remnant? plan ≠ none ∨ a.id ∈ rest)
    {arg : Expr} (harg : plan.Unwraps ⟨arg⟩) (target : GoType) :
    keepsApart rest target (arg.prune plan) (pruneAncestors plan ancestors) =
      keepsApart redundant target arg ancestors := by
  have houter : (outer? rest (pruneAncestors plan ancestors)).any isArithmetic =
      (outer? redundant ancestors).any isArithmetic := by
    rw [outer?_pruneAncestors h]
    cases hp : outer? redundant ancestors with
    | none => rfl
    | some a =>
      have ha := hancestors a (List.mem_of_find?_eq_some hp)
      simpa using ha.isArithmetic_prune
  have hu := harg.of_mem arg.unparen_mem_nodes
  unfold keepsApart
  rw [houter, harg.unparen_prune]
  cases he : arg.unparen
  case call id callee args spread =>
    rw [he] at hu
    obtain ⟨c, f, as, s, hprune⟩ := hu.exists_prune_call
    rw [hprune]
  all_goals simp only [Node.prune]

namespace Wrapping

variable {ws : List Wrapper} {info info' : TypeInfo} {plain wrapped : File} {options : DetectOptions}

theorem redundant_prune_iff (h : Wrapping ws info plain info' wrapped)
    (hcallees : PlainCallees info plain) {id : NodeId} {callee arg : Expr} {ancestors : List AnyNode}
    (hv : ⟨⟨.call id callee [arg] false⟩, ancestors⟩ ∈ AnyNode.visits ⟨wrapped⟩ [])
    (hr : (Node.call id callee [arg] false).remnant? (.dropping ws) = none)
    {redundant rest : List NodeId}
    (hancestors : ∀ a ∈ ancestors,
      a.id ∈ redundant ↔ a.node.remnant? (.dropping ws) ≠ none ∨ a.id ∈ rest) :
    Redundant info options rest (pruneAncestors (.dropping ws) ancestors)
        (callee.prune (.dropping ws)) (arg.prune (.dropping ws)) ↔
      Redundant info' options redundant ancestors callee arg := by
  have hmem := mem_nodes_of_visit hv
  have harg : ⟨arg⟩ ∈ AnyNode.nodes ⟨wrapped⟩ :=
    mem_nodes_trans hmem (child_mem_nodes (arg_mem_children ..))
  have hleft : ⟨arg.prune (.dropping ws)⟩ ∈ AnyNode.nodes ⟨plain⟩ :=
    mem_nodes_trans (h.call_mem_plain hmem) (child_mem_nodes (prune_mem_children
      (n := ⟨.call id callee [arg] false⟩) (m := ⟨arg⟩) hr (arg_mem_children ..)))
  have hu : ∀ a ∈ ancestors, (Plan.dropping ws).Unwraps a := fun a ha =>
    h.unwraps.of_mem ((mem_nodes_of_ancestor hv ha).resolve_left List.not_mem_nil)
  unfold Redundant
  rw [h.isUntyped_prune hcallees harg hleft]
  -- Every test of the first walk comes out the same for what is left of the call.
  constructor
  · rintro ⟨target, operand, htarget, htype, hoperand, hsame, huntyped, hapart⟩
    rw [Plan.Unwraps.keepsApart_prune hu hancestors (h.unwraps.of_mem harg)] at hapart
    obtain ⟨operand', hoperand', hsame'⟩ :=
      (h.identical_iff harg hleft target.type).mp ⟨operand, hoperand, hsame⟩
    exact ⟨target, operand', (h.isType_iff hcallees hmem hr htype).mp htarget, htype, hoperand',
      hsame', huntyped, hapart⟩
  · rintro ⟨target, operand, htarget, htype, hoperand, hsame, huntyped, hapart⟩
    rw [← Plan.Unwraps.keepsApart_prune hu hancestors (h.unwraps.of_mem harg)] at hapart
    obtain ⟨operand', hoperand', hsame'⟩ :=
      (h.identical_iff harg hleft target.type).mpr ⟨operand, hoperand, hsame⟩
    exact ⟨target, operand', (h.isType_iff hcallees hmem hr htype).mpr htarget, htype, hoperand',
      hsame', huntyped, hapart⟩

theorem wrapper_redundant (h : Wrapping ws info plain info' wrapped)
    (hcallees : PlainCallees info plain) {w : Wrapper} (hw : w ∈ ws) :
    w.call ∈ (scan wrapped info' options).redundant := by
  obtain ⟨ancestors, hv⟩ := exists_visit [] (h.mem w hw)
  obtain ⟨inner, -, name, -, hinner, -, ⟨hname, htype, hsame⟩, -⟩ := h.recorded w hw
  refine (mem_redundant_iff h.ids hv).mpr ⟨name, inner, hname, htype, hinner, hsame,
    h.isUntyped_inner hcallees hw _, Or.inr ?_⟩
  simp [keepsApart, Wrapper.innerExpr, Node.unparen]

theorem exists_call_of_redundant (h : Wrapping ws info plain info' wrapped) {x : AnyNode}
    (hx : x ∈ AnyNode.nodes ⟨wrapped⟩) (hr : x.node.remnant? (.dropping ws) = none)
    (hid : x.id ∈ (scan wrapped info' options).redundant ∨
      x.id ∈ (scan plain info options).redundant) :
    ∃ id callee arg, x = ⟨.call id callee [arg] false⟩ := by
  rcases hid with hid | hid
  · exact call_of_redundant h.ids hx hid
  · obtain ⟨callee, arg, ancestors, hv⟩ := exists_visit_of_redundant hid
    have hy := mem_nodes_of_visit hv
    rw [← h.prune_file] at hy
    obtain ⟨y, hyw, hyr, heq⟩ := h.unwraps.exists_of_mem_prune hy
    have hyid : y.id = x.id := by
      have := congrArg AnyNode.id heq
      rwa [AnyNode.id, AnyNode.prune, Node.id_prune hyr] at this
    obtain rfl := h.ids.eq_of_id hyw hx hyid
    obtain ⟨callee', arg', hcall, -⟩ := AnyNode.exists_of_prune_call hyr heq
    exact ⟨_, callee', arg', hcall⟩

theorem mem_redundant_step (h : Wrapping ws info plain info' wrapped)
    (hcallees : PlainCallees info plain) {x : AnyNode} {ancestors : List AnyNode}
    (hv : ⟨x, ancestors⟩ ∈ AnyNode.visits ⟨wrapped⟩ [])
    (hancestors : ∀ a ∈ ancestors, a.id ∈ (scan wrapped info' options).redundant ↔
      a.node.remnant? (.dropping ws) ≠ none ∨ a.id ∈ (scan plain info options).redundant) :
    x.id ∈ (scan wrapped info' options).redundant ↔
      x.node.remnant? (.dropping ws) ≠ none ∨ x.id ∈ (scan plain info options).redundant := by
  have hx := mem_nodes_of_visit hv
  by_cases hr : x.node.remnant? (.dropping ws) = none
  · rw [or_iff_right (not_not.mpr hr)]
    -- Only calls of one argument are redundant in either file, so only these are compared.
    suffices hcall : ∀ id callee arg, x = ⟨.call id callee [arg] false⟩ →
        (x.id ∈ (scan wrapped info' options).redundant ↔
          x.id ∈ (scan plain info options).redundant) by
      constructor <;> intro hid
      · obtain ⟨id, callee, arg, heq⟩ := h.exists_call_of_redundant hx hr (Or.inl hid)
        exact (hcall id callee arg heq).mp hid
      · obtain ⟨id, callee, arg, heq⟩ := h.exists_call_of_redundant hx hr (Or.inr hid)
        exact (hcall id callee arg heq).mpr hid
    rintro id callee arg rfl
    have hvisit := h.unwraps.mem_visits_prune hv rfl
    rw [h.prune_file] at hvisit
    simp only [Visit.prune, AnyNode.prune] at hvisit
    rw [Node.prune_call hr] at hvisit
    have hids := h.unwraps.distinctIds h.ids
    rw [h.prune_file] at hids
    change id ∈ _ ↔ id ∈ _
    rw [mem_redundant_iff h.ids hv, mem_redundant_iff hids hvisit]
    exact (h.redundant_prune_iff hcallees hv hr hancestors).symm
  · obtain ⟨r, hgoes⟩ := Option.ne_none_iff_exists'.mp hr
    obtain ⟨id, callee, arg, spread, heq, -⟩ := Node.exists_of_remnant? hgoes
    obtain ⟨x⟩ := x
    cases heq
    obtain ⟨w, hw, heq⟩ := h.exists_wrapper hx hr
    cases heq
    exact iff_of_true (h.wrapper_redundant hcallees hw) (Or.inl hr)

theorem mem_redundant_visit (h : Wrapping ws info plain info' wrapped)
    (hcallees : PlainCallees info plain) {x : AnyNode} {ancestors : List AnyNode}
    (hv : ⟨x, ancestors⟩ ∈ AnyNode.visits ⟨wrapped⟩ []) :
    ∀ a ∈ x :: ancestors, a.id ∈ (scan wrapped info' options).redundant ↔
      a.node.remnant? (.dropping ws) ≠ none ∨ a.id ∈ (scan plain info options).redundant := by
  induction ancestors generalizing x with
  | nil => simpa using h.mem_redundant_step hcallees hv (by simp)
  | cons p ps ih =>
    have hancestors : ∀ a ∈ p :: ps, a.id ∈ (scan wrapped info' options).redundant ↔
        a.node.remnant? (.dropping ws) ≠ none ∨ a.id ∈ (scan plain info options).redundant := by
      rcases visit_cases hv with ⟨-, hnil⟩ | ⟨q, qs, heq, hq, -⟩
      · cases hnil
      · cases heq
        exact ih hq
    intro a ha
    rcases List.mem_cons.mp ha with rfl | ha
    · exact h.mem_redundant_step hcallees hv hancestors
    · exact hancestors a ha

theorem mem_redundant (h : Wrapping ws info plain info' wrapped) (hcallees : PlainCallees info plain)
    {x : AnyNode} (hx : x ∈ AnyNode.nodes ⟨wrapped⟩) :
    x.id ∈ (scan wrapped info' options).redundant ↔
      x.node.remnant? (.dropping ws) ≠ none ∨ x.id ∈ (scan plain info options).redundant := by
  obtain ⟨ancestors, hv⟩ := exists_visit [] hx
  exact h.mem_redundant_visit hcallees hv x List.mem_cons_self

end Wrapping

/-! ## Chains -/

namespace Wrapping

variable {ws : List Wrapper} {info info' : TypeInfo} {plain wrapped : File} {options : DetectOptions}

theorem arg_mem_children_cons (id : NodeId) (callee arg : Expr) (args : List Expr) (spread : Bool) :
    ⟨arg⟩ ∈ AnyNode.children ⟨.call id callee (arg :: args) spread⟩ := by
  simp [AnyNode.children, Node.children]

theorem child_eq_of_id (h : Wrapping ws info plain info' wrapped) {p : AnyNode}
    (hp : p ∈ AnyNode.nodes ⟨wrapped⟩) {x y : Expr} (hx : ⟨x⟩ ∈ p.children) (hy : ⟨y⟩ ∈ p.children)
    (hid : (x.prune (.dropping ws)).id = (y.prune (.dropping ws)).id) : x = y := by
  have hu : ∀ {e : Expr}, ⟨e⟩ ∈ p.children → (Plan.dropping ws).Unwraps ⟨e⟩ := fun he =>
    (h.unwraps.of_mem hp).child he
  rw [(hu hx).id_prune_eq, (hu hy).id_prune_eq] at hid
  have hrx := Node.residue_mem_nodes (.dropping ws) x
  have hry := Node.residue_mem_nodes (.dropping ws) y
  have heq := (h.ids.of_mem hp).eq_of_id (mem_nodes_of_child hx hrx) (mem_nodes_of_child hy hry) hid
  rw [← heq] at hry
  cases (h.ids.of_mem hp).children_eq hx hy hrx hry
  rfl

theorem links_prune (h : Wrapping ws info plain info' wrapped) (hcallees : PlainCallees info plain)
    {p : AnyNode} (hp : p ∈ AnyNode.nodes ⟨wrapped⟩) (hr : p.node.remnant? (.dropping ws) = none)
    {x : Expr} (hx : ⟨x⟩ ∈ p.children) :
    (p.prune (.dropping ws)).links (scan plain info options).redundant (x.prune (.dropping ws)).id =
      p.links (scan wrapped info' options).redundant x.id := by
  have hmem : p.id ∈ (scan wrapped info' options).redundant ↔ _ := h.mem_redundant hcallees hp
  obtain ⟨p⟩ := p
  cases p
  case call outer callee args spread =>
    rw [AnyNode.prune, Node.prune_call hr]
    cases args with
    | nil => rfl
    | cons arg args =>
      -- Two children of a node do not have one id, before and after the wrappers go.
      have hid : (arg.prune (.dropping ws)).id = (x.prune (.dropping ws)).id ↔ arg.id = x.id := by
        constructor
        · intro hid
          rw [h.child_eq_of_id hp (arg_mem_children_cons ..) hx hid]
        · intro hid
          have heq := (h.ids.of_mem hp).eq_of_id
            (child_mem_nodes (arg_mem_children_cons ..)) (child_mem_nodes hx) hid
          cases heq
          rfl
      have hout : outer ∈ (scan wrapped info' options).redundant ↔
          outer ∈ (scan plain info options).redundant := by
        simpa [hr, AnyNode.id, Node.id] using hmem
      rw [Bool.eq_iff_iff]
      simp only [List.map_cons, AnyNode.links, Bool.and_eq_true, decide_eq_true_eq,
        List.contains_iff_mem, hid, hout]
  all_goals simp only [AnyNode.prune, Node.prune, AnyNode.links]

theorem links_wrapper (h : Wrapping ws info plain info' wrapped) (hcallees : PlainCallees info plain)
    {p : AnyNode} (hp : p ∈ AnyNode.nodes ⟨wrapped⟩) (hgoes : p.node.remnant? (.dropping ws) ≠ none)
    {x : Expr} (hx : ⟨x⟩ ∈ p.children) (hcall : x.isCall = true) :
    p.links (scan wrapped info' options).redundant x.id = true ∧
      p.prune (.dropping ws) = ⟨x.prune (.dropping ws)⟩ := by
  have hmem : p.id ∈ (scan wrapped info' options).redundant :=
    (h.mem_redundant hcallees hp).mpr (Or.inl hgoes)
  rcases (h.unwraps.of_mem hp).stays_or_wrapper (n := p.node) with
    hr | ⟨id, w, name, arg, spread, hid, heq, hprune⟩
  · exact (hgoes hr).elim
  · change p = _ at heq
    subst heq
    simp [AnyNode.children, Node.children] at hx
    rcases hx with rfl | rfl
    · cases hcall
    · refine ⟨?_, hprune⟩
      simpa [AnyNode.links] using show id ∈ _ from hmem

theorem exists_chainTop (h : Wrapping ws info plain info' wrapped) (hcallees : PlainCallees info plain)
    {x : Expr} {ancestors : List AnyNode} (hv : ⟨⟨x⟩, ancestors⟩ ∈ AnyNode.visits ⟨wrapped⟩ [])
    (hcall : x.isCall = true) (hx : x.id ∈ (scan wrapped info' options).redundant) :
    ∃ (t : Expr) (above : List AnyNode), ⟨⟨t⟩, above⟩ ∈ AnyNode.visits ⟨wrapped⟩ [] ∧
      t.isCall = true ∧ t.id ∈ (scan wrapped info' options).redundant ∧
      (∀ p ∈ above.head?, p.node.remnant? (.dropping ws) = none) ∧
      chainTop (scan wrapped info' options).redundant x.id ancestors = (t.id, above) ∧
      chainTop (scan plain info options).redundant (x.prune (.dropping ws)).id
        (pruneAncestors (.dropping ws) ancestors) =
        ((t.prune (.dropping ws)).id, pruneAncestors (.dropping ws) above) := by
  induction ancestors generalizing x with
  | nil => exact ⟨x, [], hv, hcall, hx, by simp, rfl, rfl⟩
  | cons p ps ih =>
    rcases visit_cases hv with ⟨-, hnil⟩ | ⟨q, qs, heq, hq, hchild⟩
    · cases hnil
    cases heq
    have hp := mem_nodes_of_visit hq
    rw [chainTop_cons]
    -- A wrapper above `x` takes the place of `x` and is skipped in the other chain. Any other node
    -- is linked in both chains or in neither.
    by_cases hr : p.node.remnant? (.dropping ws) = none
    · have hcons : pruneAncestors (.dropping ws) (p :: ps) =
          p.prune (.dropping ws) :: pruneAncestors (.dropping ws) ps := by
        simp [pruneAncestors, hr]
      rw [hcons, chainTop_cons, h.links_prune hcallees hp hr hchild]
      by_cases hlink : p.links (scan wrapped info' options).redundant x.id = true
      · obtain ⟨outer, callee, arg, args, spread, rfl, -, hout⟩ := exists_call_of_links hlink
        rw [if_pos hlink, if_pos hlink]
        exact ih hq rfl hout
      · rw [if_neg hlink, if_neg hlink]
        exact ⟨x, p :: ps, hv, hcall, hx, by simpa using hr, rfl, by rw [hcons]⟩
    · obtain ⟨hlink, hprune⟩ := h.links_wrapper hcallees hp hr hchild hcall
      obtain ⟨outer, callee, arg, args, spread, rfl, -, hout⟩ := exists_call_of_links hlink
      have hskip : pruneAncestors (.dropping ws) (⟨.call outer callee (arg :: args) spread⟩ :: ps) =
          pruneAncestors (.dropping ws) ps := by
        rcases h.unwraps.of_mem hp |>.stays_or_wrapper with hr' | ⟨id, w, name, a, s, hid, heq, -⟩
        · exact (hr hr').elim
        · cases heq
          simp [pruneAncestors, Node.remnant?, hid]
      rw [if_pos hlink, hskip]
      have hsame : (x.prune (.dropping ws)).id =
          ((Node.call outer callee (arg :: args) spread).prune (.dropping ws)).id :=
        (congrArg AnyNode.id hprune).symm
      rw [hsame]
      exact ih hq rfl hout

end Wrapping

end ConvSweep
