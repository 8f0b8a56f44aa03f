import ConvSweep.Proofs.Fusion
import ConvSweep.Proofs.Typing

/-! # Nothing is left to remove

Once all redundant conversions are gone, detection finds no other one. It decides a conversion by its
types, by whether its argument is untyped and by the operations around it, and none of these makes a
conversion redundant only because others are gone.
-/

namespace ConvSweep

open AnyNode Detect

/-! ## Untyped values -/

section

variable {plan : Plan} {info info' : TypeInfo}

theorem Node.unparen_prune (e : Expr) :
    (e.prune plan).unparen = (e.unparen.prune plan).unparen := by
  generalize hn : (⟨e⟩ : AnyNode) = n
  induction n using AnyNode.induct generalizing e with
  | step n ih =>
    subst hn
    cases e
    case paren id x =>
      rw [Node.prune, unparen, unparen]
      exact ih ⟨x⟩ (paren_mem_children ..) x rfl
    all_goals rfl

theorem Node.unparen_mem_nodes (e : Expr) : ⟨e.unparen⟩ ∈ AnyNode.nodes ⟨e⟩ := by
  generalize hn : (⟨e⟩ : AnyNode) = n
  induction n using AnyNode.induct generalizing e with
  | step n ih =>
    subst hn
    cases e
    case paren id x =>
      rw [Node.unparen]
      exact mem_nodes_of_child (paren_mem_children ..) (ih ⟨x⟩ (paren_mem_children ..) x rfl)
    all_goals exact self_mem_nodes _

theorem prune_mem_children {n m : AnyNode} (hr : n.node.remnant? plan = none) (hm : m ∈ n.children) :
    m.prune plan ∈ (n.prune plan).children := by
  rw [AnyNode.children_prune hr]
  exact List.mem_map_of_mem hm

/-- The id under which a name is looked up. -/
def Node.named? {c : Category} : Node c → Option NodeId
  | .ident id _ => some id
  | .selector _ _ sel => some sel.id
  | _ => none

/-- The names at a node and below it refer to the same objects. -/
def TypeInfo.NamesAgree (info info' : TypeInfo) (n : AnyNode) : Prop :=
  ∀ x ∈ n.nodes, ∀ id ∈ x.node.named?, info'.objectOf id = info.objectOf id

theorem TypeInfo.NamesAgree.of_mem {n m : AnyNode} (h : info.NamesAgree info' n) (hm : m ∈ n.nodes) :
    info.NamesAgree info' m :=
  fun x hx => h x (mem_nodes_trans hm hx)

theorem TypeInfo.NamesAgree.prune_child {n m : AnyNode} (h : info.NamesAgree info' (n.prune plan))
    (hr : n.node.remnant? plan = none) (hm : m ∈ n.children) : info.NamesAgree info' (m.prune plan) :=
  h.of_mem (child_mem_nodes (prune_mem_children hr hm))

theorem TypeInfo.NamesAgree.objectOf_eq {c : Category} {n : Node c} {id : NodeId}
    (h : info.NamesAgree info' ⟨n⟩) (hid : n.named? = some id) :
    info'.objectOf id = info.objectOf id :=
  h ⟨n⟩ (self_mem_nodes _) id hid

theorem TypeInfo.builtinOf_prune {e : Expr} (hnames : info.NamesAgree info' ⟨e.prune plan⟩)
    {b : Builtin} (h : info.builtinOf e = some b) : info'.builtinOf (e.prune plan) = some b := by
  have hmem := (e.prune plan).unparen_mem_nodes
  unfold builtinOf at h ⊢
  split at h
  · rename_i id name heq
    have hname : (e.prune plan).unparen = .ident id name := by
      rw [Node.unparen_prune, heq, Node.prune, Node.unparen]
      simp
    rw [hname] at hmem ⊢
    simpa only [hnames _ hmem id rfl] using h
  · cases h

/-- No conversion of an untyped value goes. -/
def Node.ConvertsTyped (plan : Plan) (info : TypeInfo) {c : Category} (n : Node c) : Prop :=
  ∀ id callee arg spread, ⟨.call id callee [arg] spread⟩ ∈ AnyNode.nodes ⟨n⟩ → plan id ≠ none →
    arg.isUntypedPermissive info = false

theorem Node.ConvertsTyped.child {c : Category} {n : Node c} (h : n.ConvertsTyped plan info)
    {e : Expr} (he : ⟨e⟩ ∈ AnyNode.children ⟨n⟩) : e.ConvertsTyped plan info :=
  fun id callee arg spread hmem => h id callee arg spread (mem_nodes_of_child he hmem)

theorem Node.ConvertsTyped.stays {id : NodeId} {callee arg : Expr} {spread : Bool}
    (h : (Node.call id callee [arg] spread).ConvertsTyped plan info)
    (harg : arg.isUntypedPermissive info = true) : plan id = none := by
  by_contra hid
  rw [h id callee arg spread (self_mem_nodes _) hid] at harg
  cases harg

theorem Node.ConvertsTyped.below {c : Category} {n : Node c} (h : n.ConvertsTyped plan info)
    (hnames : info.NamesAgree info' ⟨n.prune plan⟩) (hr : n.remnant? plan = none) {e : Expr}
    (he : ⟨e⟩ ∈ AnyNode.children ⟨n⟩) :
    info.NamesAgree info' ⟨e.prune plan⟩ ∧ e.ConvertsTyped plan info :=
  ⟨hnames.prune_child (n := ⟨n⟩) hr he, h.child he⟩

theorem Node.isUntypedPermissive_prune {c : Category} {n : Node c}
    (hnames : info.NamesAgree info' ⟨n.prune plan⟩) (hconv : n.ConvertsTyped plan info)
    (h : n.isUntypedPermissive info = true) : (n.prune plan).isUntypedPermissive info' = true := by
  fun_induction Node.isUntypedPermissive info n with
  | case1 id x op y hshift ih =>
    obtain ⟨hnx, hcx⟩ := hconv.below hnames rfl (e := x) (by simp [AnyNode.children, Node.children])
    simp [Node.prune, isUntypedPermissive, hshift, ih hnx hcx h]
  | case2 id x op y hshift hcomparison =>
    simp [Node.prune, isUntypedPermissive, hshift, hcomparison]
  | case3 id x op y hshift hcomparison ihx ihy =>
    rw [Bool.and_eq_true] at h
    obtain ⟨hnx, hcx⟩ := hconv.below hnames rfl (e := x) (by simp [AnyNode.children, Node.children])
    obtain ⟨hny, hcy⟩ := hconv.below hnames rfl (e := y) (by simp [AnyNode.children, Node.children])
    simp [Node.prune, isUntypedPermissive, hshift, hcomparison, ihx hnx hcx h.1, ihy hny hcy h.2]
  | case4 id op x ih =>
    rw [Bool.and_eq_true] at h
    obtain ⟨hnx, hcx⟩ := hconv.below hnames rfl (e := x) (by simp [AnyNode.children, Node.children])
    simp [Node.prune, isUntypedPermissive, h.1, ih hnx hcx h.2]
  | case5 id kind text => simp [Node.prune, isUntypedPermissive]
  | case6 id x ih =>
    obtain ⟨hnx, hcx⟩ := hconv.below hnames rfl (paren_mem_children id x)
    simpa [Node.prune, isUntypedPermissive] using ih hnx hcx h
  | case7 id x sel =>
    have hobject : info'.objectOf sel.id = info.objectOf sel.id :=
      hnames.objectOf_eq (by simp [Node.prune, Node.named?])
    simpa [Node.prune, isUntypedPermissive, TypeInfo.isUntypedName, hobject] using h
  | case8 id name =>
    have hobject : info'.objectOf id = info.objectOf id :=
      hnames.objectOf_eq (by simp [Node.prune, Node.named?])
    simpa [Node.prune, isUntypedPermissive, TypeInfo.isUntypedName, hobject] using h
  -- A built-in call of untyped values does not go: its argument would be an untyped conversion.
  | case9 id callee x spread hbuiltin ih | case10 id callee x spread hbuiltin ih =>
    have hstays := hconv.stays h
    obtain ⟨hncallee, -⟩ := hconv.below hnames hstays (callee_mem_children ..)
    obtain ⟨hnx, hcx⟩ := hconv.below hnames hstays (arg_mem_children ..)
    simpa [Node.prune, hstays, isUntypedPermissive, TypeInfo.builtinOf_prune hncallee hbuiltin] using
      ih hnx hcx h
  | case12 id callee re im spread hbuiltin ihre ihim =>
    rw [Bool.and_eq_true] at h
    obtain ⟨hncallee, -⟩ := hconv.below hnames rfl (callee_mem_children ..)
    obtain ⟨hnre, hcre⟩ := hconv.below hnames rfl (e := re) (by simp [AnyNode.children, Node.children])
    obtain ⟨hnim, hcim⟩ := hconv.below hnames rfl (e := im) (by simp [AnyNode.children, Node.children])
    simp [Node.prune, isUntypedPermissive, TypeInfo.builtinOf_prune hncallee hbuiltin,
      ihre hnre hcre h.1, ihim hnim hcim h.2]
  | case11 | case13 | case14 => cases h

theorem Node.isUntypedStrict_prune {c : Category} {n : Node c}
    (hnames : info.NamesAgree info' ⟨n.prune plan⟩) (h : n.isUntypedStrict info = true) :
    (n.prune plan).isUntypedStrict info' = true := by
  fun_induction Node.isUntypedStrict info n with
  | case1 id x op y hshift ih =>
    have hnx := hnames.prune_child (n := ⟨.binary id x op y⟩) (m := ⟨x⟩) rfl
      (by simp [AnyNode.children, Node.children])
    simpa [Node.prune, isUntypedStrict, hshift] using ih hnx h
  | case2 id x op y hshift => simpa [Node.prune, isUntypedStrict, hshift] using h
  | case3 id name =>
    have hobject : info'.objectOf id = info.objectOf id :=
      hnames.objectOf_eq (by simp [Node.prune, Node.named?])
    simpa [Node.prune, isUntypedStrict, hobject] using h
  | case4 => cases h

/-! ## Operations around a conversion -/

theorem outer?_pruneAncestors {redundant rest : List NodeId} {ancestors : List AnyNode}
    (h : ∀ a ∈ ancestors, a.id ∈ redundant ↔ a.node.remnant? plan ≠ none ∨ a.id ∈ rest) :
    outer? rest (pruneAncestors plan ancestors) =
      (outer? redundant ancestors).map (·.prune plan) := by
  induction ancestors with
  | nil => rfl
  | cons a as ih =>
    have hrest := ih fun b hb => h b (List.mem_cons_of_mem _ hb)
    have ha := h a List.mem_cons_self
    obtain ⟨a⟩ := a
    cases hr : a.remnant? plan with
    | some r =>
      obtain ⟨id, callee, arg, spread, heq, hid⟩ := Node.exists_of_remnant? hr
      cases heq
      -- The search skips a redundant call, and the parentheses that it leaves.
      have hmem : id ∈ redundant := ha.mpr (Or.inl (by simp [hr]))
      have hskip : outer? redundant (⟨.call id callee [arg] spread⟩ :: as) = outer? redundant as := by
        simp [outer?, hmem]
      rw [hskip, ← hrest]
      cases r with
      | bare => simp [pruneAncestors, hr]
      | wrapped => simp [pruneAncestors, hr, outer?, AnyNode.prune, Node.prune, hid]
    | none =>
      have hcons : pruneAncestors plan (⟨a⟩ :: as) = ⟨a.prune plan⟩ :: pruneAncestors plan as := by
        simp [pruneAncestors, hr, AnyNode.prune]
      rw [hcons]
      unfold outer? at hrest ⊢
      cases a
      case paren id x => simpa [Node.prune] using hrest
      case call id callee args spread =>
        have hmem : id ∈ rest ↔ id ∈ redundant := by simpa [hr, AnyNode.id, Node.id] using ha.symm
        by_cases hid : id ∈ redundant
        · simpa [Node.prune_call hr, hmem, hid] using hrest
        · simp [Node.prune_call hr, hmem, hid, AnyNode.prune]
      all_goals simp only [Node.prune, AnyNode.prune, List.find?_cons, Option.map_some]

theorem isArithmetic_prune {n : AnyNode} (h : isArithmetic n = true) :
    isArithmetic (n.prune plan) = true := by
  obtain ⟨n⟩ := n
  cases n <;> first | cases h | simpa [AnyNode.prune, Node.prune, isArithmetic] using h

theorem keepsApart_prune {redundant : List NodeId} {ancestors : List AnyNode}
    (h : ∀ a ∈ ancestors, a.id ∈ redundant ↔ a.node.remnant? plan ≠ none) {target : GoType}
    {arg : Expr} (hapart : keepsApart redundant target arg ancestors = true) :
    keepsApart [] target (arg.prune plan) (pruneAncestors plan ancestors) = true := by
  unfold keepsApart at hapart ⊢
  simp only [Bool.and_eq_true] at hapart ⊢
  obtain ⟨⟨hfloat, harg⟩, houter⟩ := hapart
  refine ⟨⟨hfloat, ?_⟩, ?_⟩
  · rw [Node.unparen_prune]
    split at harg
    · rename_i id l op r heq
      rw [heq, Node.prune]
      exact harg
    · cases harg
  · rw [outer?_pruneAncestors fun a ha => by simpa using h a ha]
    cases hp : outer? redundant ancestors with
    | none => simp [hp] at houter
    | some p =>
      rw [hp] at houter
      exact isArithmetic_prune houter

end

/-! ## Types -/

/-- What the checker knows of a file whose conversions in `plan` are gone: the nodes that stay have the
entries and the objects that they had, and parentheses that are left have the entry of what is inside. -/
structure TypeInfo.CarriesOver (plan : Plan) (file : File) (info info' : TypeInfo) : Prop where
  objects : info.NamesAgree info' ⟨file.prune plan⟩
  stays : ∀ x ∈ AnyNode.nodes ⟨file.prune plan⟩, plan x.id = none →
    info'.typeOf x.id = info.typeOf x.id
  parens : ∀ id x, ⟨.paren id x⟩ ∈ AnyNode.nodes ⟨file.prune plan⟩ → plan id ≠ none →
    info'.typeOf id = info'.typeOf x.id

/-- No call of a type is a type itself, and none has a type for its argument. -/
def SourceUnit.ConversionsOfValues (unit : SourceUnit) : Prop :=
  ∀ id callee arg spread target, ⟨.call id callee [arg] spread⟩ ∈ AnyNode.nodes ⟨unit.file⟩ →
    unit.info.typeOf callee.id = some target → target.isType = true →
    (∀ entry, unit.info.typeOf id = some entry → entry.isType = false) ∧
    ∀ operand, unit.info.typeOf arg.id = some operand → operand.isType = false

variable {unit : SourceUnit} {options : DetectOptions} {removals : RemovalSet} {info' : TypeInfo}

theorem typeOf_prune (hids : DistinctIds ⟨unit.file⟩)
    (hcarry : unit.info.CarriesOver (unit.plan options removals) unit.file info') {e : Expr}
    (he : ⟨e⟩ ∈ AnyNode.nodes ⟨unit.file⟩)
    (hleft : ⟨e.prune (unit.plan options removals)⟩ ∈
      AnyNode.nodes ⟨unit.without options removals⟩) :
    info'.typeOf (e.prune (unit.plan options removals)).id =
      unit.info.typeOf (e.residue (unit.plan options removals)).id := by
  induction e using Node.residue_induct (unit.plan options removals) with
  | stays e h =>
    have hid : unit.plan options removals (e.prune (unit.plan options removals)).id = none := by
      rw [Node.id_prune h]
      exact plan_id_eq_none hids he h
    have hentry := hcarry.stays _ hleft hid
    rw [AnyNode.id] at hentry
    rw [hentry, Node.id_prune h, Node.residue_eq_self h]
  | goes id callee arg spread hid ih =>
    have harg : ⟨arg⟩ ∈ AnyNode.nodes ⟨unit.file⟩ :=
      mem_nodes_trans he (child_mem_nodes (arg_mem_children ..))
    obtain ⟨r, hr⟩ := Option.ne_none_iff_exists'.mp hid
    rw [Node.residue_call hid]
    cases r with
    | bare =>
      simp only [Node.prune, hr] at hleft ⊢
      exact ih harg hleft
    | wrapped =>
      simp only [Node.prune, hr] at hleft ⊢
      have hinside := mem_nodes_trans hleft (child_mem_nodes (paren_mem_children ..))
      rw [← ih harg hinside]
      exact hcarry.parens id _ hleft hid

theorem residue_not_type (hids : DistinctIds ⟨unit.file⟩) (hvalues : unit.ConversionsOfValues)
    {e : Expr} (he : ⟨e⟩ ∈ AnyNode.nodes ⟨unit.file⟩)
    (hgoes : e.remnant? (unit.plan options removals) ≠ none) {entry : TypeEntry}
    (hentry : unit.info.typeOf (e.residue (unit.plan options removals)).id = some entry) :
    entry.isType = false := by
  induction e using Node.residue_induct (unit.plan options removals) with
  | stays e h => exact (hgoes h).elim
  | goes id callee arg spread hid ih =>
    rw [Node.residue_call hid] at hentry
    by_cases hr : arg.remnant? (unit.plan options removals) = none
    · obtain ⟨ancestors, target, operand, hcallee, htype, -⟩ := redundant_of_plan hids he hid
      rw [Node.residue_eq_self hr] at hentry
      exact (hvalues id callee arg spread target he hcallee htype).2 entry hentry
    · exact ih (mem_nodes_trans he (child_mem_nodes (arg_mem_children ..))) hr hentry

/-! ## The second detection -/

theorem isUntyped_prune (hids : DistinctIds ⟨unit.file⟩)
    {e : Expr} (hnames : unit.info.NamesAgree info' ⟨e.prune (unit.plan options removals)⟩)
    (he : ⟨e⟩ ∈ AnyNode.nodes ⟨unit.file⟩) (h : e.isUntyped unit.info options.untyped = true) :
    (e.prune (unit.plan options removals)).isUntyped info' options.untyped = true := by
  unfold Node.isUntyped at h ⊢
  cases hmode : options.untyped with
  | strict =>
    rw [hmode] at h
    exact Node.isUntypedStrict_prune hnames h
  | permissive =>
    rw [hmode] at h
    refine Node.isUntypedPermissive_prune hnames ?_ h
    intro id callee arg spread hmem hid
    obtain ⟨ancestors, target, operand, -, -, -, -, huntyped, -⟩ :=
      redundant_of_plan hids (mem_nodes_trans he hmem) hid
    rw [hmode] at huntyped
    exact huntyped

theorem redundant_of_prune {found : Findings} (hids : DistinctIds ⟨unit.file⟩)
    (htyped : unit.ConversionsTyped) (hvalues : unit.ConversionsOfValues)
    (h : detect unit options = .ok found)
    (hcarry : unit.info.CarriesOver (unit.plan options found.removals) unit.file info')
    {id : NodeId} {callee arg : Expr} {ancestors : List AnyNode}
    (hv : ⟨⟨.call id callee [arg] false⟩, ancestors⟩ ∈ AnyNode.visits ⟨unit.file⟩ [])
    (hcallee : ⟨callee.prune (unit.plan options found.removals)⟩ ∈
      AnyNode.nodes ⟨unit.without options found.removals⟩)
    (harg : ⟨arg.prune (unit.plan options found.removals)⟩ ∈
      AnyNode.nodes ⟨unit.without options found.removals⟩)
    (hred : Redundant info' options []
      (pruneAncestors (unit.plan options found.removals) ancestors)
      (callee.prune (unit.plan options found.removals))
      (arg.prune (unit.plan options found.removals))) :
    Redundant unit.info options (unit.redundant options) ancestors callee arg := by
  obtain ⟨target, operand, htarget, htype, hoperand, hsame, huntyped, hapart⟩ := hred
  have hmem := mem_nodes_of_visit hv
  have hcallee' : ⟨callee⟩ ∈ AnyNode.nodes ⟨unit.file⟩ :=
    mem_nodes_trans hmem (child_mem_nodes (callee_mem_children ..))
  have harg' : ⟨arg⟩ ∈ AnyNode.nodes ⟨unit.file⟩ :=
    mem_nodes_trans hmem (child_mem_nodes (arg_mem_children ..))
  rw [typeOf_prune hids hcarry hcallee' hcallee] at htarget
  rw [typeOf_prune hids hcarry harg' harg] at hoperand
  -- A callee that is a type is not what a conversion left.
  have hstays : callee.remnant? (unit.plan options found.removals) = none := by
    by_contra hgoes
    rw [residue_not_type hids hvalues hcallee' hgoes htarget] at htype
    cases htype
  rw [Node.residue_eq_self hstays] at htarget
  have hentry : ∃ entry, unit.info.typeOf arg.id = some entry ∧
      identical target.type entry.type = true := by
    by_cases hr : arg.remnant? (unit.plan options found.removals) = none
    · rw [Node.residue_eq_self hr] at hoperand
      exact ⟨operand, hoperand, hsame⟩
    · obtain ⟨-, before, after, hbefore, hafter, hlink⟩ := residue_typed hids htyped harg' hr
      rw [hoperand, Option.some.injEq] at hafter
      subst hafter
      exact ⟨before, hbefore, identical_trans hsame hlink⟩
  obtain ⟨entry, hentry, hsame⟩ := hentry
  refine ⟨target, entry, htarget, htype, hentry, hsame, ?_, hapart.imp_right fun hapart => ?_⟩
  · by_contra huntyped'
    rw [Bool.not_eq_false] at huntyped'
    rw [isUntyped_prune hids (hcarry.objects.of_mem harg) harg' huntyped'] at huntyped
    cases huntyped
  · by_contra hkeeps
    rw [Bool.not_eq_false] at hkeeps
    have hancestors : ∀ a ∈ ancestors, a.id ∈ unit.redundant options ↔
        a.node.remnant? (unit.plan options found.removals) ≠ none := by
      intro a ha
      exact mem_redundant_iff_goes hids h
        ((mem_nodes_of_ancestor hv ha).resolve_left List.not_mem_nil)
    rw [keepsApart_prune hancestors hkeeps] at hapart
    cases hapart

/-- Once all redundant conversions are gone, detection with the same options succeeds and finds
nothing to remove. -/
theorem detect_without_finds_nothing {found : Findings} (hids : DistinctIds ⟨unit.file⟩)
    (htyped : unit.ConversionsTyped) (hvalues : unit.ConversionsOfValues)
    (h : detect unit options = .ok found)
    (hcarry : unit.info.CarriesOver (unit.plan options found.removals) unit.file info') :
    ∃ again, detect (.ofFile unit.path (unit.without options found.removals) info') options =
      .ok again ∧ again.removals = .empty := by
  refine detect_eq_empty (redundant_foldl_eq_nil rfl ?_)
  intro id callee arg ancestors hv hred
  change _ ∈ AnyNode.visits ⟨unit.without options found.removals⟩ [] at hv
  have hmem := mem_nodes_of_visit hv
  have hcallee := mem_nodes_trans hmem (child_mem_nodes (callee_mem_children ..))
  have harg := mem_nodes_trans hmem (child_mem_nodes (arg_mem_children ..))
  rcases exists_visit_of_without hv with ⟨_, _, heq, -⟩ | ⟨⟨n, ancestors'⟩, hw, hstays, heq⟩
  · cases heq
  · obtain ⟨hnode, rfl⟩ := Visit.mk.inj heq
    obtain ⟨callee', arg', rfl, rfl, rfl⟩ := AnyNode.exists_of_prune_call hstays hnode.symm
    have hbefore := redundant_of_prune hids htyped hvalues h hcarry hw hcallee harg hred
    have hid := (mem_redundant_iff hids hw).mpr hbefore
    exact (plan_ne_none_iff_mem hids h).mpr hid hstays

/-- `_ = a + float64(float64(b * c))` with an object for every name of the file. -/
def namedProduct : SourceUnit :=
  { roundedProduct with info :=
    { roundedProduct.info with uses := .ofList [(4, ⟨"a", .var, .basic .float64, false⟩),
      (6, ⟨"float64", .typeName, .basic .float64, true⟩),
      (8, ⟨"float64", .typeName, .basic .float64, true⟩),
      (10, ⟨"b", .var, .basic .float64, false⟩), (11, ⟨"c", .var, .basic .float64, false⟩)] } }

/-- What the checker records of `_ = a + float64(b * c)`. -/
def shortenedInfo : TypeInfo where
  types := .ofList [(8, ⟨.type, .basic .float64⟩), (7, ⟨.value, .basic .float64⟩),
    (9, ⟨.value, .basic .float64⟩)]
  uses := namedProduct.info.uses.erase 6

/-- The outer conversion goes, and the one that stays keeps the sum and the product apart. -/
theorem namedProduct_fixed :
    ∃ found, detect namedProduct .default = .ok found ∧
      ⟨38, [⟨31, 39⟩, ⟨53, 54⟩]⟩ ∈ found.removals.toList ∧
      ∃ again, detect (.ofFile namedProduct.path (namedProduct.without .default found.removals)
        shortenedInfo) .default = .ok again ∧ again.removals = .empty := by
  obtain ⟨found, h, hfound⟩ : ∃ found, detect namedProduct .default = .ok found ∧
      found.removals = ⟨[⟨38, [⟨31, 39⟩, ⟨53, 54⟩]⟩], List.pairwise_singleton _ _⟩ :=
    exists_found _ (by decide +kernel)
  let product : Expr := .binary 9 (.ident 10 "b") .mul (.ident 11 "c")
  have hcalls : (AnyNode.nodes ⟨namedProduct.file⟩).filterMap (typeCall? namedProduct.info) =
      [(5, .call 7 (.ident 8 "float64") [product] false, ⟨.type, .basic .float64⟩),
        (7, product, ⟨.type, .basic .float64⟩)] := by
    cbv
  have htyped : namedProduct.ConversionsTyped := by
    refine forall_typeCall_iff.mpr ?_
    rw [hcalls, List.forall_mem_cons, List.forall_mem_singleton]
    exact ⟨⟨_, rfl, by decide +kernel⟩, ⟨_, rfl, by decide +kernel⟩⟩
  have hvalues : namedProduct.ConversionsOfValues := by
    refine forall_typeCall_iff.mpr ?_
    rw [hcalls, List.forall_mem_cons, List.forall_mem_singleton]
    refine ⟨⟨?_, ?_⟩, ?_, ?_⟩ <;> rintro entry ⟨⟩ <;> rfl
  have hcarry : namedProduct.info.CarriesOver (namedProduct.plan .default found.removals)
      namedProduct.file shortenedInfo := by
    have hnames : (AnyNode.nodes ⟨namedProduct.without .default found.removals⟩).filterMap
        (·.node.named?) = [2, 4, 8, 10, 11] := by
      rw [hfound]
      decide +kernel
    have hids : AnyNode.ids ⟨namedProduct.without .default found.removals⟩ =
        [100, 102, 104, 105, 1, 2, 3, 4, 7, 8, 9, 10, 11] := by
      rw [hfound]
      decide +kernel
    have hparens : (AnyNode.nodes ⟨namedProduct.without .default found.removals⟩).all
        (fun n => !n.node.isParen) = true := by
      rw [hfound]
      decide +kernel
    refine ⟨fun x hx id hid => ?_, fun x hx _ => ?_, fun id x hx _ => ?_⟩
    · have hmem : id ∈ (AnyNode.nodes ⟨namedProduct.without .default found.removals⟩).filterMap
          (·.node.named?) := List.mem_filterMap.mpr ⟨x, hx, hid⟩
      rw [hnames] at hmem
      simp only [List.mem_cons, List.not_mem_nil, or_false] at hmem
      rcases hmem with rfl | rfl | rfl | rfl | rfl <;> rfl
    · have hmem : x.id ∈ AnyNode.ids ⟨namedProduct.without .default found.removals⟩ := id_mem_ids hx
      rw [hids] at hmem
      generalize x.id = id at hmem ⊢
      simp only [List.mem_cons, List.not_mem_nil, or_false] at hmem
      rcases hmem with rfl | rfl | rfl | rfl | rfl | rfl | rfl | rfl | rfl | rfl | rfl | rfl | rfl <;>
        rfl
    · exact absurd (List.all_eq_true.mp hparens _ hx) (by simp [Node.isParen])
  exact ⟨found, h, by simp [hfound],
    detect_without_finds_nothing distinctIds_roundedProduct htyped hvalues h hcarry⟩

end ConvSweep
