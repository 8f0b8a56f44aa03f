import ConvSweep.Proofs.Fusion
import ConvSweep.Proofs.Replacing
import ConvSweep.Proofs.Unwrapping

/-! # Added parentheses

The permissive notion of untyped values looks through parentheses, as everything does that decides
whether a conversion is redundant. The walk of a tree with parentheses added to it therefore makes the
decisions of the walk without them, one after the other.
-/

namespace ConvSweep

open AnyNode Detect

/-! ## The tree -/

namespace Node

variable {c : Category} {around : NodeId → List NodeId}

/-- Puts an expression in parentheses; other nodes stay. -/
def addParen : {c : Category} → NodeId → Node c → Node c
  | .expr, id, e => .paren id e
  | _, _, n => n

/-- The tree with every expression in the parentheses that `around` gives for its id, the outermost
first. -/
def inParens (around : NodeId → List NodeId) (n : Node c) : Node c :=
  n.rebuild fun old new => (around old.id).foldr addParen new

/-- What stands inside the parentheses that are added around a node. -/
abbrev inside (around : NodeId → List NodeId) (n : Node c) : Node c :=
  n.mapChildren (·.inParens around)

theorem inParens_eq (around : NodeId → List NodeId) (n : Node c) :
    n.inParens around = (around n.id).foldr addParen (n.inside around) := by
  rw [inParens, rebuild_eq]
  rfl

theorem unparen_foldr_addParen (ids : List NodeId) (n : Node c) :
    (ids.foldr addParen n).unparen = n.unparen := by
  induction ids with
  | nil => rfl
  | cons id ids ih =>
    rw [← ih]
    cases c <;> rfl

theorem unparen_inParens (n : Node c) : (n.inParens around).unparen = n.unparen.inside around := by
  suffices h : ∀ n : AnyNode, (n.node.inParens around).unparen = n.node.unparen.inside around from h ⟨n⟩
  intro n
  induction n using AnyNode.induct with
  | step n ih =>
    obtain ⟨n⟩ := n
    rw [inParens_eq, unparen_foldr_addParen]
    cases n
    case paren id x => exact ih ⟨x⟩ (paren_mem_children ..)
    all_goals rfl

theorem isUntypedPermissive_foldr_addParen (info : TypeInfo) (ids : List NodeId) (n : Node c) :
    (ids.foldr addParen n).isUntypedPermissive info = n.isUntypedPermissive info := by
  induction ids with
  | nil => rfl
  | cons id ids ih =>
    rw [← ih]
    cases c <;> rfl

theorem id_foldr_addParen (ids : List NodeId) (n : Node c) :
    (ids.foldr addParen n).id = n.id ∨ (ids.foldr addParen n).id ∈ ids := by
  induction ids with
  | nil => exact Or.inl rfl
  | cons id ids ih =>
    cases c
    case expr => exact Or.inr List.mem_cons_self
    all_goals exact ih.imp_right (List.mem_cons_of_mem _)

end Node

theorem AnyNode.children_inside (around : NodeId → List NodeId) (n : AnyNode) :
    AnyNode.children ⟨n.node.inside around⟩ =
      n.children.map fun m => ⟨m.node.inParens around⟩ := by
  unfold AnyNode.children
  rw [Node.children_mapChildren, List.map_map, List.map_map]
  rfl

theorem AnyNode.visits_foldr_addParen {c : Category} (ids : List NodeId) (n : Node c)
    (as : List AnyNode) :
    ∃ (vs : List Visit) (ps : List AnyNode),
      (∀ v ∈ vs, v.node.node.isParen = true) ∧ (∀ p ∈ ps, p.node.isParen = true) ∧
      AnyNode.visits ⟨ids.foldr Node.addParen n⟩ as = vs ++ AnyNode.visits ⟨n⟩ (ps ++ as) := by
  induction ids generalizing as with
  | nil => exact ⟨[], [], by simp, by simp, rfl⟩
  | cons id ids ih =>
    cases c
    case expr =>
      obtain ⟨vs, ps, hvs, hps, heq⟩ := ih (⟨.paren id (ids.foldr Node.addParen n)⟩ :: as)
      refine ⟨⟨⟨.paren id (ids.foldr Node.addParen n)⟩, as⟩ :: vs,
        ps ++ [⟨.paren id (ids.foldr Node.addParen n)⟩], ?_, ?_, ?_⟩
      · simpa [Node.isParen] using hvs
      · simpa [or_imp, forall_and, Node.isParen] using hps
      · rw [List.foldr_cons, Node.addParen, AnyNode.visits_eq]
        simp [AnyNode.children, Node.children, Slot.one, heq]
    all_goals exact ih as

/-! ## What is decided by -/

/-- The checker knows of the tree with added parentheses what it knows of the tree, and of every added
pair what it knows of the expression inside. -/
structure TypeInfo.CopiesInto (info info' : TypeInfo) (around : NodeId → List NodeId) (n : AnyNode) :
    Prop extends info.AgreesOn info' n where
  copies : ∀ e : Expr, ⟨e⟩ ∈ n.nodes → ∀ p ∈ around e.id, info'.typeOf p = info.typeOf e.id

section

variable {info info' : TypeInfo} {around : NodeId → List NodeId}

theorem TypeInfo.CopiesInto.of_mem {n m : AnyNode} (h : info.CopiesInto info' around n)
    (hm : m ∈ n.nodes) : info.CopiesInto info' around m where
  toAgreesOn := h.toAgreesOn.of_mem hm
  copies e he := h.copies e (mem_nodes_trans hm he)

theorem TypeInfo.CopiesInto.child {n m : AnyNode} (h : info.CopiesInto info' around n)
    (hm : m ∈ n.children) : info.CopiesInto info' around m := h.of_mem (child_mem_nodes hm)

theorem TypeInfo.CopiesInto.typeOf {e : Expr} (h : info.CopiesInto info' around ⟨e⟩) :
    info'.typeOf (e.inParens around).id = info.typeOf e.id := by
  rw [Node.inParens_eq]
  rcases Node.id_foldr_addParen (around e.id) (e.inside around) with hid | hid
  · rw [hid, Node.id_mapChildren]
    exact h.types _ (self_mem_nodes _)
  · exact h.copies e (self_mem_nodes _) _ hid

theorem TypeInfo.CopiesInto.builtinOf {e : Expr} (h : info.CopiesInto info' around ⟨e⟩) :
    info'.builtinOf (e.inParens around) = info.builtinOf e := by
  have hmem := e.unparen_mem_nodes
  unfold TypeInfo.builtinOf
  rw [Node.unparen_inParens]
  cases he : e.unparen
  case ident id name =>
    rw [he] at hmem
    simp only [Node.inside, Node.mapChildren, h.objects _ hmem id rfl]
  all_goals rfl

theorem TypeInfo.CopiesInto.isUntypedPermissive {c : Category} {n : Node c}
    (h : info.CopiesInto info' around ⟨n⟩) :
    (n.inParens around).isUntypedPermissive info' = n.isUntypedPermissive info := by
  generalize hm : (⟨n⟩ : AnyNode) = m at h
  induction m using AnyNode.induct generalizing c n with
  | step m ih =>
    subst hm
    rw [Node.inParens_eq, Node.isUntypedPermissive_foldr_addParen]
    have hsub : ∀ x : Expr, ⟨x⟩ ∈ AnyNode.children ⟨n⟩ →
        (x.inParens around).isUntypedPermissive info' = x.isUntypedPermissive info :=
      fun x hx => ih ⟨x⟩ hx rfl (h.child hx)
    have hname : ∀ id ∈ n.named?, info'.isUntypedName id = info.isUntypedName id := by
      intro id hid
      rw [isUntypedName, isUntypedName, h.objects _ (self_mem_nodes _) id hid]
    cases n
    case call id callee args spread =>
      have hbuiltin := (h.child (callee_mem_children id callee args spread)).builtinOf
      rcases args with _ | ⟨x, _ | ⟨y, _ | ⟨z, args⟩⟩⟩
      all_goals simp [AnyNode.children, Node.children] at hsub
      all_goals simp [Node.mapChildren, Node.isUntypedPermissive, hbuiltin, hsub]
    case binary | unary | paren =>
      simp [AnyNode.children, Node.children, or_imp, forall_and] at hsub
      simp [Node.mapChildren, Node.isUntypedPermissive, hsub]
    case selector id x sel => exact hname sel.id rfl
    case ident id name => exact hname id rfl
    all_goals simp [Node.mapChildren, Node.isUntypedPermissive]

end

/-- The two rows of ancestors have arithmetic next to what is inside, or neither has. -/
def SameOuter (as as' : List AnyNode) : Prop :=
  ∀ redundant, (outer? redundant as').any isArithmetic = (outer? redundant as).any isArithmetic

theorem SameOuter.parens {as as' ps : List AnyNode} (h : SameOuter as as')
    (hps : ∀ p ∈ ps, p.node.isParen = true) : SameOuter as (ps ++ as') := by
  induction ps with
  | nil => exact h
  | cons p ps ih =>
    intro redundant
    rw [← ih (fun q hq => hps q (List.mem_cons_of_mem _ hq)) redundant]
    obtain ⟨p⟩ := p
    have hp := hps _ List.mem_cons_self
    cases p <;> simp [Node.isParen] at hp
    rfl

theorem SameOuter.inside {as as' : List AnyNode} (h : SameOuter as as')
    (around : NodeId → List NodeId) (n : AnyNode) :
    SameOuter (n :: as) (⟨n.node.inside around⟩ :: as') := by
  intro redundant
  have hrest := h redundant
  unfold outer? at hrest ⊢
  rw [List.find?_cons, List.find?_cons]
  obtain ⟨n⟩ := n
  cases n
  case call id callee args spread =>
    simp only [Node.inside, Node.mapChildren]
    cases redundant.contains id with
    | false => rfl
    | true => exact hrest
  case paren id x => exact hrest
  all_goals rfl

theorem keepsApart_inParens {as as' : List AnyNode} (h : SameOuter as as')
    (around : NodeId → List NodeId) (redundant : List NodeId) (target : GoType) (arg : Expr) :
    keepsApart redundant target (arg.inParens around) as' = keepsApart redundant target arg as := by
  unfold keepsApart
  rw [h redundant, Node.unparen_inParens]
  cases arg.unparen <;> rfl

/-! ## One visit -/

namespace Detect

variable {info info' : TypeInfo} {around : NodeId → List NodeId} {fastMath : Bool}

theorem Scan.foldl_visit_parens {options : DetectOptions} {vs : List Visit}
    (h : ∀ v ∈ vs, v.node.node.isParen = true) (s : Scan) :
    vs.foldl (Scan.visit info options) s = s := by
  induction vs with
  | nil => rfl
  | cons v vs ih =>
    have hv := h v List.mem_cons_self
    obtain ⟨⟨n⟩, as⟩ := v
    cases n <;> simp [Node.isParen] at hv
    exact ih fun w hw => h w (List.mem_cons_of_mem _ hw)

theorem Scan.visit_inside {n : AnyNode} (h : info.CopiesInto info' around n) {as as' : List AnyNode}
    (hsame : SameOuter as as') (s : Scan) :
    s.visit info' ⟨.permissive, fastMath⟩ ⟨⟨n.node.inside around⟩, as'⟩ =
      s.visit info ⟨.permissive, fastMath⟩ ⟨n, as⟩ := by
  obtain ⟨n⟩ := n
  cases n
  case call id callee args spread =>
    rcases args with _ | ⟨arg, _ | ⟨y, args⟩⟩
    · rfl
    · cases spread with
      | true => rfl
      | false =>
        have hcallee := h.child (callee_mem_children id callee [arg] false)
        have harg := h.child (arg_mem_children id callee arg false)
        simp only [Node.inside, Node.mapChildren, List.map_cons, List.map_nil, Scan.visit,
          Scan.conversion, hcallee.typeOf, harg.typeOf, Node.isUntyped, harg.isUntypedPermissive,
          keepsApart_inParens hsame]
        rfl
    · rfl
  all_goals rfl

/-! ## The whole walk -/

theorem Scan.foldl_visits_inParens {n : AnyNode} (h : info.CopiesInto info' around n)
    {as as' : List AnyNode} (hsame : SameOuter as as') (s : Scan) :
    (AnyNode.visits ⟨n.node.inParens around⟩ as').foldl (Scan.visit info' ⟨.permissive, fastMath⟩) s =
      (n.visits as).foldl (Scan.visit info ⟨.permissive, fastMath⟩) s := by
  induction n using AnyNode.induct generalizing as as' s with
  | step n ih =>
    obtain ⟨vs, ps, hvs, hps, hvisits⟩ :=
      visits_foldr_addParen (around n.node.id) (n.node.inside around) as'
    have hinner := hsame.parens hps
    rw [Node.inParens_eq, hvisits, List.foldl_append, foldl_visit_parens hvs, visits_eq, visits_eq n,
      List.foldl_cons, List.foldl_cons, visit_inside h hinner, children_inside, List.flatMap_map,
      List.foldl_flatMap, List.foldl_flatMap]
    exact List.foldl_ext _ _ _ fun s m hm => ih m hm (h.child hm) (hinner.inside around n) s

theorem scan_inParens {file : File} (h : info.CopiesInto info' around ⟨file⟩) :
    scan (file.inParens around) info' ⟨.permissive, fastMath⟩ =
      scan file info ⟨.permissive, fastMath⟩ :=
  Scan.foldl_visits_inParens h (fun _ => rfl) .start

end Detect

/-- Parentheses that are added to a file, with the types of what is inside them, do not change which
conversions are redundant by the permissive notion of untyped values: detection takes out the same
calls. -/
theorem added_parens_decide_nothing {unit unit' : SourceUnit} {around : NodeId → List NodeId}
    (hids : DistinctIds ⟨unit.file⟩) (hids' : DistinctIds ⟨unit'.file⟩)
    (hfile : unit'.file = unit.file.inParens around)
    (hinfo : unit.info.CopiesInto unit'.info around ⟨unit.file⟩) (fastMath : Bool) :
    unit'.redundant ⟨.permissive, fastMath⟩ = unit.redundant ⟨.permissive, fastMath⟩ ∧
      ∀ found found', detect unit ⟨.permissive, fastMath⟩ = .ok found →
        detect unit' ⟨.permissive, fastMath⟩ = .ok found' →
        ∀ id, unit'.plan ⟨.permissive, fastMath⟩ found'.removals id ≠ none ↔
          unit.plan ⟨.permissive, fastMath⟩ found.removals id ≠ none := by
  have hredundant : unit'.redundant ⟨.permissive, fastMath⟩ =
      unit.redundant ⟨.permissive, fastMath⟩ := by
    rw [SourceUnit.redundant, hfile, scan_inParens hinfo, SourceUnit.redundant]
  refine ⟨hredundant, fun found found' h h' id => ?_⟩
  rw [plan_ne_none_iff_mem hids' h', hredundant, ← plan_ne_none_iff_mem hids h]

/-- Parentheses for `roundedProduct`: around both conversions, a callee, an argument and an operand. -/
def roundedParens : NodeId → List NodeId
  | 5 => [20]
  | 6 => [21, 22]
  | 7 => [23]
  | 9 => [24]
  | 10 => [25]
  | _ => []

/-- `_ = a + (((float64))((float64(((b) * c)))))` -/
def parenthesizedProduct : SourceUnit :=
  .ofFile roundedProduct.path (roundedProduct.file.inParens roundedParens)
    { roundedProduct.info with types := ⟨[(20, ⟨.value, .basic .float64⟩),
      (21, ⟨.type, .basic .float64⟩), (22, ⟨.type, .basic .float64⟩), (23, ⟨.value, .basic .float64⟩),
      (24, ⟨.value, .basic .float64⟩)] ++ roundedProduct.info.types.entries⟩ }

/-- The outer conversion goes and the inner one stays, as without the parentheses. -/
theorem parenthesizedProduct_decides_alike :
    DistinctIds ⟨roundedProduct.file⟩ ∧ DistinctIds ⟨parenthesizedProduct.file⟩ ∧
      roundedProduct.info.CopiesInto parenthesizedProduct.info roundedParens ⟨roundedProduct.file⟩ ∧
      parenthesizedProduct.source =
        "package p\n\nfunc f() \x7b\n\t_ = a + (((float64))((float64(((b) * c)))))\n\x7d\n" ∧
      parenthesizedProduct.redundant .default = [5] ∧ roundedProduct.redundant .default = [5] := by
  have hids : DistinctIds ⟨parenthesizedProduct.file⟩ := by decide +kernel
  have hinfo : roundedProduct.info.CopiesInto parenthesizedProduct.info roundedParens
      ⟨roundedProduct.file⟩ := by
    refine ⟨⟨fun x hx => ?_, fun _ _ _ _ => rfl⟩, fun e he p hp => ?_⟩
    · have hfresh : ∀ id ∈ AnyNode.ids ⟨roundedProduct.file⟩, id ∉ [20, 21, 22, 23, 24] := by
        decide +kernel
      have hid := hfresh _ (id_mem_ids hx)
      change List.lookup x.id (_ ++ roundedProduct.info.types.entries) = _
      rw [List.lookup_append, List.lookup_eq_none_iff.mpr]
      · rfl
      · simpa using hid
    · generalize e.id = id at hp ⊢
      unfold roundedParens at hp
      split at hp
      case h_2 => rcases List.mem_pair.mp hp with rfl | rfl <;> rfl
      case h_6 => exact absurd hp List.not_mem_nil
      all_goals
        cases List.mem_singleton.mp hp
        rfl
  have hplain : roundedProduct.redundant .default = [5] := by decide +kernel
  refine ⟨distinctIds_roundedProduct, hids, hinfo, by decide +kernel, ?_, hplain⟩
  rw [← hplain]
  exact (added_parens_decide_nothing distinctIds_roundedProduct hids rfl hinfo false).1

end ConvSweep
