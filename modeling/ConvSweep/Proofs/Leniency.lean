import ConvSweep.Proofs.Fixpoint
import ConvSweep.Proofs.Positions

/-! # Laxer settings remove more

With the strict notion of untyped values, or without regard to floating-point rounding, detection
finds everything that it finds otherwise. The second is read off each decision. The first is not: a
conversion that goes in addition may bring two operations next to each other, which a conversion
inside it would then have to keep apart.
-/

namespace ConvSweep

open AnyNode Detect

/-! ## Untyped values -/

section

variable {info : TypeInfo}

theorem Node.isUntypedPermissive_of_strict {c : Category} {n : Node c}
    (h : n.isUntypedStrict info = true) : n.isUntypedPermissive info = true := by
  fun_induction Node.isUntypedStrict info n with
  | case1 id x op y hshift ih => simpa [isUntypedPermissive, hshift] using ih h
  | case2 id x op y hshift => simp [isUntypedPermissive, hshift, h]
  | case3 id name =>
    obtain ⟨o, ho, hnil⟩ := (Option.any_eq_true _ _).mp h
    simp [isUntypedPermissive, TypeInfo.isUntypedName, ho, hnil]
  | case4 => cases h

theorem Node.isUntypedStrict_eq_false {e : Expr} (h : e.isUntypedPermissive info = false) :
    e.isUntypedStrict info = false := by
  by_contra hstrict
  rw [Bool.not_eq_false] at hstrict
  rw [isUntypedPermissive_of_strict hstrict] at h
  cases h

theorem Node.isUntypedPermissive_unparen {c : Category} (n : Node c) :
    n.unparen.isUntypedPermissive info = n.isUntypedPermissive info := by
  fun_induction Node.unparen n with
  | case1 id x ih => rw [ih, isUntypedPermissive]
  | case2 => rfl

theorem Node.isUntypedPermissive_call {id : NodeId} {callee arg : Expr} {spread : Bool}
    (h : arg.isUntypedPermissive info = false) :
    (Node.call id callee [arg] spread).isUntypedPermissive info = false := by
  rw [isUntypedPermissive]
  split <;> first | exact h | rfl

end

/-! ## Operations around a conversion -/

variable {unit : SourceUnit} {fastMath : Bool}

/-- No call, bare or in parentheses, is recorded as a type. -/
def SourceUnit.CallsAreValues (unit : SourceUnit) : Prop :=
  ∀ e : Expr, ⟨e⟩ ∈ AnyNode.nodes ⟨unit.file⟩ → e.unparen.isCall = true →
    ∀ entry, unit.info.typeOf e.id = some entry → entry.isType = false

/-- An expression that is, perhaps in parentheses, a conversion that the permissive notion finds. -/
def SourceUnit.Goes (unit : SourceUnit) (fastMath : Bool) (e : Expr) : Prop :=
  ∃ id callee arg spread, e.unparen = .call id callee [arg] spread ∧
    id ∈ unit.redundant ⟨.permissive, fastMath⟩ ∧ arg.isUntypedPermissive unit.info = false

namespace SourceUnit.Goes

variable {e : Expr}

theorem isUntypedPermissive_eq_false (h : unit.Goes fastMath e) :
    e.isUntypedPermissive unit.info = false := by
  obtain ⟨id, callee, arg, spread, he, -, harg⟩ := h
  rw [← Node.isUntypedPermissive_unparen, he]
  exact Node.isUntypedPermissive_call harg

theorem keepsApart_eq_false (h : unit.Goes fastMath e) (redundant : List NodeId) (target : GoType)
    (ancestors : List AnyNode) : keepsApart redundant target e ancestors = false := by
  obtain ⟨id, callee, arg, spread, he, -⟩ := h
  simp [keepsApart, he]

theorem mem_redundant (h : unit.Goes fastMath e) (hids : DistinctIds ⟨unit.file⟩) {id : NodeId}
    {callee : Expr} {ancestors : List AnyNode}
    (hv : ⟨⟨.call id callee [e] false⟩, ancestors⟩ ∈ AnyNode.visits ⟨unit.file⟩ [])
    (hid : id ∈ unit.redundant ⟨.strict, fastMath⟩) :
    id ∈ unit.redundant ⟨.permissive, fastMath⟩ := by
  obtain ⟨target, operand, hcallee, htype, harg, hsame, -, -⟩ := (mem_redundant_iff hids hv).mp hid
  exact (mem_redundant_iff hids hv).mpr ⟨target, operand, hcallee, htype, harg, hsame,
    h.isUntypedPermissive_eq_false, Or.inr (h.keepsApart_eq_false ..)⟩

theorem outer?_eq (h : unit.Goes fastMath e) (hids : DistinctIds ⟨unit.file⟩)
    (hcalls : unit.CallsAreValues) {ancestors : List AnyNode}
    (hv : ⟨⟨e⟩, ancestors⟩ ∈ AnyNode.visits ⟨unit.file⟩ []) {p : AnyNode}
    (hp : isArithmetic p = true)
    (houter : outer? (unit.redundant ⟨.strict, fastMath⟩) ancestors = some p) :
    outer? (unit.redundant ⟨.permissive, fastMath⟩) ancestors = some p := by
  -- Every ancestor that is skipped on one side is skipped on the other, from the inside out.
  induction ancestors generalizing e with
  | nil => cases houter
  | cons a as ih =>
    rcases visit_cases hv with ⟨-, hnil⟩ | ⟨q, qs, heq, hq, hchild⟩
    · cases hnil
    obtain ⟨rfl, rfl⟩ := List.cons.inj heq
    obtain ⟨a⟩ := a
    unfold outer? at houter ⊢
    rw [List.find?_cons] at houter ⊢
    cases a
    case paren id x =>
      simp [AnyNode.children, Node.children, Slot.one] at hchild
      subst hchild
      obtain ⟨cid, callee, arg, spread, hcall, hmem, harg⟩ := h
      have hparen : unit.Goes fastMath (.paren id e) :=
        ⟨cid, callee, arg, spread, by rw [Node.unparen, hcall], hmem, harg⟩
      exact ih hparen hq houter
    case call id callee args spread =>
      cases hid : (unit.redundant ⟨.strict, fastMath⟩).contains id with
      | false =>
        simp only [hid, Bool.not_false, Option.some.injEq] at houter
        subst houter
        cases hp
      | true =>
        have hmem := List.contains_iff_mem.mp hid
        obtain ⟨callee', arg, ancestors', hv'⟩ := exists_visit_of_redundant hmem
        cases hids.visit_eq hq hv' rfl
        obtain ⟨target, -, hcallee, htype, -⟩ := (mem_redundant_iff hids hq).mp hmem
        have hchild' : e = callee ∨ e = arg := by
          simpa [AnyNode.children, Node.children, Slot.one, Slot.many] using hchild
        rcases hchild' with rfl | rfl
        · -- What is called is a type, and a call is none.
          obtain ⟨cid, callee', arg', spread, hcall, -⟩ := h
          have := hcalls e (mem_nodes_of_visit hv) (by rw [hcall]; rfl) target hcallee
          rw [htype] at this
          cases this
        · have hgoes := h.mem_redundant hids hq hmem
          obtain ⟨-, -, -, -, -, -, harg, -⟩ := (mem_redundant_iff hids hq).mp hgoes
          have hcall : unit.Goes fastMath (.call id callee [e] false) :=
            ⟨id, callee, e, false, rfl, hgoes, harg⟩
          have hskip : (unit.redundant ⟨.permissive, fastMath⟩).contains id = true :=
            List.contains_iff_mem.mpr hgoes
          simp only [hid, Bool.not_true] at houter
          simp only [hskip, Bool.not_true]
          exact ih hcall hq houter
    all_goals exact houter

end SourceUnit.Goes

/-! ## Redundant conversions -/

variable {mode : UntypedMode} {id : NodeId}

theorem redundant_strict (hids : DistinctIds ⟨unit.file⟩) (hcalls : unit.CallsAreValues)
    (h : id ∈ unit.redundant ⟨.permissive, fastMath⟩) : id ∈ unit.redundant ⟨.strict, fastMath⟩ := by
  obtain ⟨callee, arg, ancestors, hv⟩ := exists_visit_of_redundant h
  obtain ⟨target, operand, hcallee, htype, harg, hsame, huntyped, hapart⟩ :=
    (mem_redundant_iff hids hv).mp h
  have hgoes : unit.Goes fastMath (.call id callee [arg] false) :=
    ⟨id, callee, arg, false, rfl, h, huntyped⟩
  refine (mem_redundant_iff hids hv).mpr ⟨target, operand, hcallee, htype, harg, hsame,
    Node.isUntypedStrict_eq_false huntyped, hapart.imp_right fun hapart => ?_⟩
  by_contra hkeeps
  simp only [keepsApart, Bool.not_eq_false, Bool.and_eq_true, Option.any_eq_true] at hkeeps
  obtain ⟨⟨hfloat, harith⟩, p, houter, hp⟩ := hkeeps
  have houter' := hgoes.outer?_eq hids hcalls hv hp houter
  unfold SourceUnit.redundant at houter'
  simp [keepsApart, hfloat, harith, houter', hp] at hapart

theorem redundant_fastMath (hids : DistinctIds ⟨unit.file⟩)
    (h : id ∈ unit.redundant ⟨mode, false⟩) : id ∈ unit.redundant ⟨mode, true⟩ := by
  obtain ⟨callee, arg, ancestors, hv⟩ := exists_visit_of_redundant h
  obtain ⟨target, operand, hcallee, htype, harg, hsame, huntyped, -⟩ :=
    (mem_redundant_iff hids hv).mp h
  exact (mem_redundant_iff hids hv).mpr
    ⟨target, operand, hcallee, htype, harg, hsame, huntyped, Or.inl rfl⟩

/-! ## Anchors -/

/-- Where the conversions of a set of removals open their parentheses. -/
def RemovalSet.anchors (s : RemovalSet) : List Nat := s.toList.map (·.lparen)

theorem mem_anchors_iff {options : DetectOptions} {found : Findings}
    (h : detect unit options = .ok found) {lparen : Nat} :
    lparen ∈ found.removals.anchors ↔
      ∃ id ∈ unit.redundant options, ∃ parens, unit.parens? id = some parens ∧
        parens.lparen = lparen := by
  rw [RemovalSet.anchors, List.mem_map]
  constructor
  · rintro ⟨r, hr, rfl⟩
    obtain ⟨c, hc, k, hk, rfl⟩ := (mem_removals_iff h).mp hr
    obtain ⟨⟨span, parens, argSpan, -, hparens, -, hremoval⟩, -⟩ := cut_cases hk
    refine ⟨c.id, redundant_of_conversion hc, parens, hparens, ?_⟩
    rw [hremoval, Remnant.lparen_removal]
  · rintro ⟨id, hid, parens, hparens, rfl⟩
    obtain ⟨callee, arg, ancestors, hv⟩ := exists_visit_of_redundant hid
    have hc := conversion_of_visit hv hid
    obtain ⟨k, hk⟩ := exists_cut h hc
    obtain ⟨⟨span, parens', argSpan, -, hparens', -, hremoval⟩, -⟩ := cut_cases hk
    refine ⟨k.removal, (mem_removals_iff h).mpr ⟨_, hc, k, hk, rfl⟩, ?_⟩
    rw [hparens', Option.some.injEq] at hparens
    rw [hremoval, Remnant.lparen_removal, hparens]

theorem anchors_subset {options options' : DetectOptions}
    (hmore : ∀ id ∈ unit.redundant options, id ∈ unit.redundant options') {found found' : Findings}
    (h : detect unit options = .ok found) (h' : detect unit options' = .ok found') :
    found.removals.anchors ⊆ found'.removals.anchors := by
  intro lparen hmem
  obtain ⟨id, hid, hparens⟩ := (mem_anchors_iff h).mp hmem
  exact (mem_anchors_iff h').mpr ⟨id, hmore id hid, hparens⟩

/-- The strict notion of untyped values removes at least what the permissive one removes, and without
regard to rounding at least what is removed with regard to it. -/
theorem laxer_settings_remove_more (hids : DistinctIds ⟨unit.file⟩) (hcalls : unit.CallsAreValues) :
    (∀ fastMath found found', detect unit ⟨.permissive, fastMath⟩ = .ok found →
      detect unit ⟨.strict, fastMath⟩ = .ok found' →
      found.removals.anchors ⊆ found'.removals.anchors) ∧
    ∀ mode found found', detect unit ⟨mode, false⟩ = .ok found →
      detect unit ⟨mode, true⟩ = .ok found' →
      found.removals.anchors ⊆ found'.removals.anchors := by
  constructor
  · intro fastMath found found' h h'
    exact anchors_subset (fun id => redundant_strict hids hcalls) h h'
  · intro mode found found' h h'
    exact anchors_subset (fun id => redundant_fastMath hids) h h'

/-- `_ = a + float64(float64(b * c))` and `_ = int(1)`: one of the conversions is redundant in any
case, one keeps a product apart and one converts a literal. -/
def roundedAndLiteral : SourceUnit := .ofBody
  [.assign 1 [.ident 2 "_"] .assign
    [.binary 3 (.ident 4 "a") .add (.call 5 (.ident 6 "float64")
      [.call 7 (.ident 8 "float64") [.binary 9 (.ident 10 "b") .mul (.ident 11 "c")] false] false)],
    .assign 12 [.ident 13 "_"] .assign [.call 14 (.ident 15 "int") [.basicLit 16 .int "1"] false]]
  [(6, ⟨.type, .basic .float64⟩), (8, ⟨.type, .basic .float64⟩), (7, ⟨.value, .basic .float64⟩),
    (9, ⟨.value, .basic .float64⟩), (15, ⟨.type, .basic .int⟩), (16, ⟨.constant, .basic .int⟩)]

theorem distinctIds_roundedAndLiteral : DistinctIds ⟨roundedAndLiteral.file⟩ := by decide +kernel

theorem callsAreValues_of_all {unit : SourceUnit}
    (h : ((AnyNode.nodes ⟨unit.file⟩).all fun n =>
      !n.node.unparen.isCall || (unit.info.typeOf n.id).all fun entry => !entry.isType) = true) :
    unit.CallsAreValues := by
  intro e he hcall entry hentry
  have := List.all_eq_true.mp h ⟨e⟩ he
  simpa [hcall, AnyNode.id, hentry] using this

/-- Each of the two laxer settings finds one more conversion. -/
theorem roundedAndLiteral_removes_more :
    ∃ found strict fast, detect roundedAndLiteral ⟨.permissive, false⟩ = .ok found ∧
      detect roundedAndLiteral ⟨.strict, false⟩ = .ok strict ∧
      detect roundedAndLiteral ⟨.permissive, true⟩ = .ok fast ∧
      found.removals.anchors = [38] ∧ strict.removals.anchors = [38, 63] ∧
      fast.removals.anchors = [38, 46] ∧
      found.removals.anchors ⊆ strict.removals.anchors ∧
      found.removals.anchors ⊆ fast.removals.anchors := by
  obtain ⟨found, h, hfound⟩ := exists_of_map_eq_ok
    (show (detect roundedAndLiteral ⟨.permissive, false⟩).map (fun found => found.removals.anchors) =
      .ok [38] by decide +kernel)
  obtain ⟨strict, hs, hstrict⟩ := exists_of_map_eq_ok
    (show (detect roundedAndLiteral ⟨.strict, false⟩).map (fun found => found.removals.anchors) =
      .ok [38, 63] by decide +kernel)
  obtain ⟨fast, hf, hfast⟩ := exists_of_map_eq_ok
    (show (detect roundedAndLiteral ⟨.permissive, true⟩).map (fun found => found.removals.anchors) =
      .ok [38, 46] by decide +kernel)
  have hcalls : roundedAndLiteral.CallsAreValues := callsAreValues_of_all (by decide +kernel)
  obtain ⟨huntyped, hmath⟩ := laxer_settings_remove_more distinctIds_roundedAndLiteral hcalls
  exact ⟨found, strict, fast, h, hs, hf, hfound, hstrict, hfast, huntyped false _ _ h hs,
    hmath .permissive _ _ h hf⟩

end ConvSweep
