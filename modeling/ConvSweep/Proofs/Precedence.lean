import ConvSweep.Proofs.Chains
import ConvSweep.Proofs.Leaves

/-! # Operator precedence

Every expression of a file binds as tightly as its slot asks, and still does when any of the
reported conversions are taken out.
-/

namespace ConvSweep

open AnyNode Detect

/-- How tightly an expression binds. -/
def Node.precedence (e : Expr) : Nat := (e.face fun _ => none).precedence

/-- Every expression that is not in parentheses binds at least as tightly as the slot asks into which
it is printed. -/
def PrecedenceKept (file : File) : Prop :=
  ∀ e ctx, Shows ⟨file⟩ .plain ⟨e⟩ ctx → e.isParen = false → ctx.minPrec ≤ e.precedence

/-- Whether the expression in a slot binds tightly enough. -/
def AnyNode.bindsIn : AnyNode → Ctx → Bool
  | ⟨(e : Node .expr)⟩, ctx => e.isParen || ctx.minPrec ≤ e.precedence
  | _, _ => true

theorem forall_shows_binds_iff {n : AnyNode} {ctx : Ctx} :
    (∀ (e : Expr) (ctx' : Ctx), Shows n ctx ⟨e⟩ ctx' → e.isParen = false →
      ctx'.minPrec ≤ e.precedence) ↔ ((n.slots ctx).all fun s => s.1.bindsIn s.2) = true := by
  simp only [List.all_eq_true, Prod.forall, mem_slots]
  constructor
  · rintro h n ctx hn
    unfold AnyNode.bindsIn
    split
    · rename_i e
      cases hparen : e.isParen with
      | true => rfl
      | false => simpa using h e _ hn hparen
    · rfl
  · intro h e ctx he hparen
    simpa [AnyNode.bindsIn, hparen] using h ⟨e⟩ ctx he

theorem precedenceKept_iff {file : File} :
    PrecedenceKept file ↔ ((AnyNode.slots ⟨file⟩ .plain).all fun s => s.1.bindsIn s.2) = true :=
  forall_shows_binds_iff

theorem Node.precedence_call (id : NodeId) (callee : Expr) (args : List Expr) (spread : Bool) :
    (Node.call id callee args spread).precedence = primaryPrec := by
  simp only [precedence, Node.face]

theorem PrecedenceKept.opening_of_primary {file : File} (h : PrecedenceKept file) {e : Expr}
    {ctx : Ctx} (hshow : Shows ⟨file⟩ .plain ⟨e⟩ ctx) (hprec : primaryPrec ≤ e.precedence) :
    (e.face fun _ => none).opening = none := by
  generalize hn : (⟨e⟩ : AnyNode) = n
  induction n using AnyNode.induct generalizing e ctx with
  | step n ih =>
    subst hn
    -- The operand in front stands in a slot for primary expressions.
    have hsub : ∀ x : Expr, ⟨x⟩ ∈ AnyNode.children ⟨e⟩ →
        .sub 0 (ctx.prec primaryPrec) ⟨x⟩ ∈ e.written ctx → (x.face fun _ => none).opening = none := by
      intro x hx hpiece
      have hshow' := hshow.trans (.of_piece hpiece)
      cases hparen : x.isParen with
      | true =>
        cases x <;> simp [Node.isParen] at hparen
        simp [Node.face, Face.closed]
      | false => exact ih ⟨x⟩ hx hshow' (h x _ hshow' hparen) rfl
    have hop : ∀ op : BinaryOp, op.precedence < primaryPrec := by
      intro op
      cases op <;> decide
    cases e
    case call _ x _ _ | selector _ x _ | index _ x _ | slice _ x _ _ _ | typeAssert _ x _ =>
      simp only [Node.face]
      refine hsub x ?_ ?_
      · simp [AnyNode.children, Node.children]
      · exact List.mem_cons_self
    case binary id x op y =>
      exact absurd hprec (Nat.not_le.mpr (by simpa [Node.precedence, Node.face] using hop op))
    case funcType id params results =>
      cases results with
      | nil => simp [Node.precedence, Node.face, primaryPrec, unaryPrec] at hprec
      | cons => simp [Node.face, Face.closed]
    case unary | star | chanType =>
      simp [Node.precedence, Node.face, primaryPrec, unaryPrec] at hprec
    all_goals simp [Node.face, Face.closed]

theorem Node.precedence_prune {plan : Plan} {e : Expr} (h : e.remnant? plan = none) :
    (e.prune plan).precedence = e.precedence := by
  rw [prune_eq_mapChildren h]
  cases e
  case funcType id params results => cases results <;> rfl
  all_goals rfl

theorem Face.minPrec_le {f : Face} {ctx : Ctx} (h : f.needsParens ctx = false) :
    ctx.minPrec ≤ f.precedence := by
  simp only [needsParens, Bool.or_eq_false_iff, decide_eq_false_iff_not, Nat.not_lt] at h
  exact h.1.1

variable {unit : SourceUnit} {options : DetectOptions} {removals : RemovalSet}

/-- A node is left in a slot that asks as much as one of the file: the slot of the node, or for the
argument of a conversion, the one where its chain begins. -/
structure LeftAt (unit : SourceUnit) (options : DetectOptions) (removals : RemovalSet) (n : AnyNode)
    (ctx : Ctx) : Prop where
  shown : ∃ ctx₁, Shows ⟨unit.file⟩ .plain n ctx₁ ∧ (n.isExpr = false → ctx₁.minPrec = ctx.minPrec)
  slot : ∀ e : Expr, n = ⟨e⟩ → ∃ x ctxx, Shows ⟨unit.file⟩ .plain ⟨x⟩ ctxx ∧
    ctxx.minPrec = ctx.minPrec ∧ (e = x ∨ ∃ d ∈ unit.conversions options,
      d.ChainedTo unit options x ∧ unit.plan options removals d.id = some .bare ∧ e = d.arg)

theorem Shows.leftAt {n : AnyNode} {ctx ctx₁ : Ctx} (h : Shows ⟨unit.file⟩ .plain n ctx₁)
    (hctx : ctx₁.minPrec = ctx.minPrec) : LeftAt unit options removals n ctx := by
  refine ⟨⟨ctx₁, h, fun _ => hctx⟩, ?_⟩
  rintro e rfl
  exact ⟨e, ctx₁, h, hctx, Or.inl rfl⟩

theorem LeftAt.piece {n m : AnyNode} {ctx ctx' : Ctx} {k : Nat}
    (h : LeftAt unit options removals n ctx) (hm : .sub k ctx' m ∈ n.node.written ctx) :
    LeftAt unit options removals m ctx' := by
  obtain ⟨ctx₁, hn, hctx⟩ := h.shown
  have hR : Ctx.Inherited fun c c' => c'.minPrec = c.minPrec :=
    ⟨fun _ => rfl, fun _ _ => rfl, fun _ _ _ => rfl⟩
  have hslot : ∃ ctx₁', .sub k ctx₁' m ∈ n.node.written ctx₁ ∧ ctx₁'.minPrec = ctx'.minPrec := by
    cases hexpr : n.isExpr with
    | true =>
      have hc : n.category ≠ .stmt := by
        simp only [isExpr, decide_eq_true_eq] at hexpr
        simp [hexpr]
      rw [Node.written_prec hc] at hm
      rw [Node.written_prec hc ctx₁]
      have hzero : (ctx₁.prec 0).minPrec = (ctx.prec 0).minPrec := rfl
      exact Node.exists_slot hR hzero hm
    | false => exact Node.exists_slot hR (hctx hexpr) hm
  obtain ⟨ctx₁', hm', heq⟩ := hslot
  exact (hn.trans (.of_piece hm')).leftAt heq

theorem LeftAt.arg (hids : DistinctIds ⟨unit.file⟩) {id : NodeId} {callee arg : Expr} {spread : Bool}
    {ctx : Ctx} (h : LeftAt unit options removals ⟨.call id callee [arg] spread⟩ ctx)
    (hid : unit.plan options removals id = some .bare) : LeftAt unit options removals ⟨arg⟩ ctx := by
  obtain ⟨ctx₁, hn, -⟩ := h.shown
  obtain ⟨x, ctxx, hx, hctx, hchain⟩ := h.slot _ rfl
  obtain ⟨c, hc, rfl, k, hk, hmem, hbare⟩ := (plan_eq_some_iff hids).mp hid
  cases hids.eq_of_id (Conversion.node_mem hids hc) hn.mem_nodes rfl
  refine ⟨⟨.plain, hn.trans (.arg ..), fun h => by cases h⟩, ?_⟩
  rintro e he
  cases he
  refine ⟨x, ctxx, hx, hctx, Or.inr ⟨c, hc, ?_, hid, rfl⟩⟩
  rcases hchain with rfl | ⟨d, hd, hdx, -, harg⟩
  · exact .refl hids hc
  · exact hdx.step hids hd hc harg

theorem Leaves.leftAt (hids : DistinctIds ⟨unit.file⟩) {n x : AnyNode} {ctx ctx' : Ctx}
    (h : Leaves (unit.plan options removals) n ctx x ctx') (hn : LeftAt unit options removals n ctx) :
    LeftAt unit options removals x ctx' := by
  induction h with
  | self => exact hn
  | bare hid _ ih => exact ih (hn.arg hids hid)
  | wrapped hid _ ih =>
    obtain ⟨ctx₁, hn, -⟩ := hn.shown
    exact ih ((hn.trans (.arg ..)).leftAt rfl)
  | piece _ hm _ ih => exact ih (hn.piece hm)

theorem LeftAt.minPrec_le (hids : DistinctIds ⟨unit.file⟩) (htok : HasTokens ⟨unit.file⟩)
    (hprec : PrecedenceKept unit.file) {e : Expr} {ctx : Ctx}
    (h : LeftAt unit options removals ⟨e⟩ ctx)
    (hbare : e.remnant? (unit.plan options removals) ≠ some .bare)
    (hparen : (e.prune (unit.plan options removals)).isParen = false) :
    ctx.minPrec ≤ (e.prune (unit.plan options removals)).precedence := by
  cases hr : e.remnant? (unit.plan options removals) with
  | some r =>
    obtain ⟨id, callee, arg, spread, heq, hid⟩ := Node.exists_of_remnant? hr
    cases heq
    cases r with
    | bare => exact (hbare hr).elim
    | wrapped => simp [Node.prune, hid, Node.isParen] at hparen
  | none =>
    rw [Node.precedence_prune hr]
    obtain ⟨x, ctxx, hx, hctx, rfl | ⟨d, hd, hchain, hplan, rfl⟩⟩ := h.slot e rfl
    · rw [← hctx]
      refine hprec e ctxx hx ?_
      cases e <;> first | rfl | simp [Node.prune, Node.isParen] at hparen
    · obtain ⟨c, hc, hid, k, hk, -, hkbare⟩ := (plan_eq_some_iff hids).mp hplan
      cases conversion_eq_of_id hids hc hd hid
      rw [← hctx]
      -- The argument is a call again, or its trial found that the slot asks for no parentheses.
      rcases needsParens_of_chain hids htok hx hchain hk hkbare with hgoes | hneeds
      · unfold goesAway at hgoes
        split at hgoes
        · rename_i hcall
          rw [hcall, Node.precedence_call]
          exact hx.minPrec_le (Nat.zero_le _)
        · cases hgoes
      · exact Face.minPrec_le hneeds

/-- Taking any of the reported conversions out keeps operator precedence. Each removal takes one
conversion out, in the shape that the removal has. -/
theorem precedence_kept_without {found : Findings} (hids : DistinctIds ⟨unit.file⟩)
    (htok : HasTokens ⟨unit.file⟩) (hprec : PrecedenceKept unit.file)
    (h : detect unit options = .ok found)
    (hsub : ∀ r ∈ removals.toList, r ∈ found.removals.toList) :
    (∀ r ∈ removals.toList, ∃ c ∈ unit.conversions options, ∃ remnant : Remnant,
      unit.plan options removals c.id = some remnant ∧
      ∃ span parens arg, r = remnant.removal span parens arg) ∧
    PrecedenceKept (unit.without options removals) := by
  constructor
  · intro r hr
    obtain ⟨c, hc, k, hk, rfl⟩ := (mem_removals_iff h).mp (hsub r hr)
    obtain ⟨⟨span, parens, arg, -, -, -, hremoval⟩, -⟩ := cut_cases hk
    exact ⟨c, hc, k.remnant, (plan_eq_some_iff hids).mpr ⟨c, hc, rfl, k, hk, hr, rfl⟩, span, parens,
      arg, hremoval⟩
  · intro e' ctx he' hparen
    change Shows (AnyNode.prune (unit.plan options removals) ⟨unit.file⟩) .plain ⟨e'⟩ ctx at he'
    obtain ⟨⟨e⟩, hleaves, hprune, hbare⟩ := he'.exists_leaves
    cases hprune
    have hroot : LeftAt unit options removals ⟨unit.file⟩ .plain := (Shows.self _ _).leftAt rfl
    exact (hleaves.leftAt hids hroot).minPrec_le hids htok hprec hbare hparen

/-- `_ = -int(int(-x))` becomes `_ = -(-x)`. -/
theorem negatedChain_precedence_kept :
    ∃ found, detect negatedChain .default = .ok found ∧ found.removals.toList.length = 2 ∧
      PrecedenceKept negatedChain.file ∧
      PrecedenceKept (negatedChain.without .default found.removals) := by
  obtain ⟨found, h, hfound⟩ := removals_negatedChain
  have hids := distinctIds_negatedChain
  have htok : HasTokens ⟨negatedChain.file⟩ := hasTokens_iff.mpr (by decide +kernel)
  have hprec : PrecedenceKept negatedChain.file := precedenceKept_iff.mpr (by decide +kernel)
  exact ⟨found, h, by rw [hfound]; rfl, hprec, (precedence_kept_without hids htok hprec h fun _ hr => hr).2⟩

end ConvSweep
