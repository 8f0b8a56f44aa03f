import ConvSweep.Proofs.Children
import ConvSweep.Proofs.Verdict

/-! # Replacing expressions in a tree

Printing a tree with a substitution is printing the tree in which the substitution is made, except
where the printer looks at the tree as it is written: at the type of a method in an interface, and
at whether the type of a composite literal is a name.
-/

namespace ConvSweep

open AnyNode

namespace Node

variable {target : NodeId} {r : Expr} {c : Category}

/-- What stands in for a node: `r`, if it is an expression with the id `target`. -/
def standIn? : {c : Category} → Node c → NodeId → Expr → Option (Node c)
  | .expr, e, target, r => if target = e.id then some r else none
  | _, _, _, _ => none

/-- The tree with `r` in place of every expression with the id `target`. -/
def replace (n : Node c) (target : NodeId) (r : Expr) : Node c :=
  n.rebuild fun old new => (old.standIn? target r).getD new

theorem replace_target {e : Expr} (h : e.id = target) : e.replace target r = r := by
  rw [replace, rebuild_eq, standIn?, if_pos h.symm]
  rfl

theorem replace_eq_mapChildren {n : Node c} (h : n.standIn? target r = none) :
    n.replace target r = n.mapChildren (·.replace target r) := by
  rw [replace, rebuild_eq, h]
  rfl

theorem standIn?_eq_none {n : Node c} (h : c = .expr → n.id ≠ target) :
    n.standIn? target r = none := by
  cases c with
  | expr => exact if_neg (Ne.symm (h rfl))
  | _ => rfl

theorem keepsFields_replace : KeepsFields (·.replace target r) :=
  fun _ _ _ => replace_eq_mapChildren rfl

theorem isTypeName_replace_paren (e : Expr) (pid : NodeId) :
    (e.replace target (.paren pid r)).isTypeName = (e.replace target r).isTypeName := by
  generalize hn : (⟨e⟩ : AnyNode) = n
  induction n using AnyNode.induct generalizing e with
  | step n ih =>
    subst hn
    by_cases hid : e.id = target
    · rw [replace_target hid, replace_target hid, isTypeName, isTypeName, unparen]
    · rw [replace_eq_mapChildren (standIn?_eq_none fun _ => hid),
        replace_eq_mapChildren (standIn?_eq_none fun _ => hid)]
      cases e
      case paren id x =>
        simp only [mapChildren, isTypeName, unparen]
        exact ih ⟨x⟩ (by simp [AnyNode.children, Node.children]) x rfl
      all_goals rfl

end Node

def AnyNode.replace (n : AnyNode) (target : NodeId) (r : Expr) : AnyNode := ⟨n.node.replace target r⟩

/-! ## Where the printer reads the tree -/

/-- The printer reads off the tree itself whether the type of a composite literal is a name, and the
signature of a method. Neither changes when `r` is put in place of `target`. -/
structure AnyNode.Replaceable (n : AnyNode) (target : NodeId) (r : Expr) : Prop where
  typeName : ∀ id t elts, ⟨.composite id (some t) elts⟩ ∈ n.nodes →
    (t.replace target r).isTypeName = t.isTypeName
  method : ∀ id methods fid name names type, ⟨.interfaceType id methods⟩ ∈ n.nodes →
    .field fid (name :: names) type ∈ methods → type.id ≠ target

/-- What the printer reads off one node stays. -/
def AnyNode.readsAlike (target : NodeId) (r : Expr) : AnyNode → Bool
  | ⟨.composite _ (some t) _⟩ => (t.replace target r).isTypeName = t.isTypeName
  | ⟨.interfaceType _ methods⟩ => methods.all fun
    | .field _ (_ :: _) type => type.id ≠ target
    | .field .. => true
  | _ => true

theorem AnyNode.replaceable_iff {n : AnyNode} {target : NodeId} {r : Expr} :
    n.Replaceable target r ↔ n.nodes.all (readsAlike target r) = true := by
  rw [List.all_eq_true]
  constructor
  · intro h x hx
    unfold readsAlike
    split
    · exact decide_eq_true (h.typeName _ _ _ hx)
    · rw [List.all_eq_true]
      intro g hg
      split
      · exact decide_eq_true (h.method _ _ _ _ _ _ hx hg)
      · rfl
    · rfl
  · intro h
    refine ⟨fun id t elts hmem => of_decide_eq_true (h _ hmem), ?_⟩
    intro id methods fid name names type hmem hfield
    exact of_decide_eq_true (List.all_eq_true.mp (h _ hmem) _ hfield)

namespace AnyNode.Replaceable

variable {n m : AnyNode} {target : NodeId} {r : Expr}

theorem of_subset (h : n.Replaceable target r) (hsub : ∀ x ∈ m.nodes, x ∈ n.nodes) :
    m.Replaceable target r :=
  ⟨fun id t elts hmem => h.typeName id t elts (hsub _ hmem),
    fun id methods fid name names type hmem =>
      h.method id methods fid name names type (hsub _ hmem)⟩

theorem paren (h : n.Replaceable target r) (pid : NodeId) : n.Replaceable target (.paren pid r) :=
  ⟨fun id t elts hmem => (Node.isTypeName_replace_paren t pid).trans (h.typeName id t elts hmem),
    h.method⟩

theorem face_replace {e : Expr} (h : Replaceable ⟨e⟩ target r) :
    (e.replace target r).face (fun _ => none) =
      e.face ((r.face fun _ => none).standing target) := by
  generalize hn : (⟨e⟩ : AnyNode) = n at h
  induction n using AnyNode.induct generalizing e with
  | step n ih =>
    subst hn
    by_cases hid : e.id = target
    · rw [Node.replace_target hid, Node.face_of_id hid]
    · rw [Node.replace_eq_mapChildren (Node.standIn?_eq_none fun _ => hid)]
      refine Node.seen_face_mapChildren true (if_neg (Ne.symm hid)) rfl ?_ ?_
      · exact fun x hx => ih ⟨x⟩ hx rfl (h.of_subset fun y hy => mem_nodes_of_child hx hy)
      · rintro id t elts rfl
        exact h.typeName id t elts (self_mem_nodes _)

end AnyNode.Replaceable

/-! ## Printing -/

namespace Substitution

variable (sub : Substitution) (pid : NodeId)

/-- What the substitution puts into a tree. Its parentheses get the id `pid`. -/
def inserted : Expr := if sub.parenthesize then .paren pid sub.replacement else sub.replacement

theorem face_inserted : ((sub.inserted pid).face fun _ => none) = sub.face := by
  rw [inserted, face]
  split
  · exact Node.face_paren rfl _
  · rfl

theorem chars_inserted {e : Expr} (h : e.id = sub.target) (depth : Nat) (ctx : Ctx) :
    e.chars (.substituting sub) depth ctx = (sub.inserted pid).chars .canonical depth ctx := by
  obtain ⟨target, r, b⟩ := sub
  subst h
  rw [Trial.chars_target]
  cases b with
  | true =>
    have hparen : Style.canonical.standInFor (.paren pid r) = none := rfl
    exact (Node.chars_paren hparen depth ctx).symm
  | false => simp [wrap, inserted]

theorem standInFor_eq_none {c : Category} {n : Node c} (h : c = .expr → n.id ≠ sub.target) :
    (Style.substituting sub).standInFor n = none := by
  by_cases hc : c = .expr
  · simp [Style.standInFor, Style.substituting, Ne.symm (h hc)]
  · exact if_neg hc

theorem pieces_replace {c : Category} {n : Node c}
    (h : Replaceable ⟨n⟩ sub.target (sub.inserted pid)) (ctx : Ctx) :
    (n.mapChildren (·.replace sub.target (sub.inserted pid))).pieces Style.canonical.showsParens ctx =
      (n.pieces (Style.substituting sub).showsParens ctx).map
        (Piece.mapNodes (·.replace sub.target (sub.inserted pid))) := by
  refine n.pieces_mapChildren Node.keepsFields_replace ?_ ?_
  · rintro id x heq
    cases heq
    have hx : ⟨x⟩ ∈ AnyNode.children ⟨.paren id x⟩ := by simp [AnyNode.children, Node.children]
    have hface := (h.of_subset fun y hy => mem_nodes_of_child hx hy).face_replace
    rw [sub.face_inserted] at hface
    exact congrArg (Face.needsParens · ctx) hface
  · rintro id methods heq g hg
    cases heq
    refine Piece.map_method Node.keepsFields_replace g ?_
    rintro fid name names type rfl -
    have htype := h.method id methods fid name names type (self_mem_nodes _) hg
    exact Node.replace_eq_mapChildren (Node.standIn?_eq_none fun _ => htype)

theorem chars_replace {n : AnyNode} (h : n.Replaceable sub.target (sub.inserted pid)) :
    ∀ depth ctx, n.node.chars (.substituting sub) depth ctx =
      (n.node.replace sub.target (sub.inserted pid)).chars .canonical depth ctx := by
  induction n using AnyNode.print_induct with
  | step n ih =>
    intro depth ctx
    obtain @⟨c, n⟩ := n
    by_cases hid : c = .expr ∧ n.id = sub.target
    · obtain ⟨rfl, hid⟩ := hid
      rw [sub.chars_inserted pid hid, Node.replace_target hid]
    · have hne : c = .expr → n.id ≠ sub.target := fun hc hn => hid ⟨hc, hn⟩
      rw [Node.chars_eq (sub.standInFor_eq_none hne),
        Node.replace_eq_mapChildren (Node.standIn?_eq_none hne),
        Node.chars_eq (by simp [Style.standInFor, Style.canonical]), sub.pieces_replace pid h,
        List.flatMap_map]
      refine List.flatMap_congr fun p hp => ?_
      cases p with
      | text s => rfl
      | line k => rfl
      | sub k ctx' m =>
        exact ih _ _ k ctx' m hp (h.of_subset fun x hx => Node.mem_nodes_of_piece hp hx) _ ctx'

theorem render_replace {n : AnyNode} (h : n.Replaceable sub.target (sub.inserted pid)) :
    n.render (some sub) = (n.replace sub.target (sub.inserted pid)).render none := by
  have htext := String.toList_inj.mp (sub.chars_replace pid h 0 .plain)
  simp only [render, print, htext]
  rfl

end Substitution

/-- Rendering with a substitution is rendering the tree in which the substitution is made. -/
theorem substitution_renders_replaced_tree {n : AnyNode} {target : NodeId} {r : Expr}
    (h : n.Replaceable target r) (pid : NodeId) :
    n.render (some ⟨target, r, false⟩) = (n.replace target r).render none ∧
      n.render (some ⟨target, r, true⟩) = (n.replace target (.paren pid r)).render none :=
  ⟨Substitution.render_replace ⟨target, r, false⟩ pid h,
    Substitution.render_replace ⟨target, r, true⟩ pid (h.paren pid)⟩

/-- `if -int(-x) == (T{y}) {}` -/
def negatedCondition : Stmt :=
  .ifStmt 1 none
    (.binary 2 (.unary 3 .neg (.call 4 (.ident 5 "int") [.unary 6 .neg (.ident 7 "x")] false)) .eql
      (.paren 8 (.composite 9 (some (.ident 10 "T")) [.ident 11 "y"])))
    (.block 12 []) none

theorem negatedCondition_replaced :
    Replaceable ⟨negatedCondition⟩ 4 (.unary 6 .neg (.ident 7 "x")) ∧
      AnyNode.render ⟨negatedCondition⟩ (some ⟨4, .unary 6 .neg (.ident 7 "x"), false⟩) =
        (AnyNode.replace ⟨negatedCondition⟩ 4 (.unary 6 .neg (.ident 7 "x"))).render none ∧
      AnyNode.render ⟨negatedCondition⟩ (some ⟨4, .unary 6 .neg (.ident 7 "x"), false⟩) =
        "if --x == (T\x7by\x7d) \x7b\n\x7d" ∧
      AnyNode.render ⟨negatedCondition⟩ (some ⟨4, .unary 6 .neg (.ident 7 "x"), true⟩) =
        (AnyNode.replace ⟨negatedCondition⟩ 4 (.paren 20 (.unary 6 .neg (.ident 7 "x")))).render none ∧
      AnyNode.render ⟨negatedCondition⟩ (some ⟨4, .unary 6 .neg (.ident 7 "x"), true⟩) =
        "if -(-x) == (T\x7by\x7d) \x7b\n\x7d" := by
  have h : Replaceable ⟨negatedCondition⟩ 4 (.unary 6 .neg (.ident 7 "x")) :=
    replaceable_iff.mpr (by decide +kernel)
  have hrender := substitution_renders_replaced_tree h 20
  exact ⟨h, hrender.1, by decide +kernel, hrender.2, by decide +kernel⟩

/-- `switch ((T){}) {}` -/
def switchOnLiteral : Stmt :=
  .switchStmt 1 none (some (.paren 2 (.composite 3 (some (.paren 4 (.ident 5 "T"))) []))) []

/-- With `[]int` for a type `T` in parentheses, the literal still counts as one of a named type and
keeps its parentheses. With `[]int` in the tree it does not need them. -/
theorem switchOnLiteral_differs :
    (∀ id t elts, ⟨.composite id (some t) elts⟩ ∈ AnyNode.nodes ⟨switchOnLiteral⟩ → t.id ≠ 5) ∧
      (∀ id methods, ⟨.interfaceType id methods⟩ ∉ AnyNode.nodes ⟨switchOnLiteral⟩) ∧
      5 ∉ AnyNode.ids ⟨.arrayType 6 none (.ident 7 "int")⟩ ∧
      AnyNode.render ⟨switchOnLiteral⟩ (some ⟨5, .arrayType 6 none (.ident 7 "int"), false⟩) =
        "switch ([]int\x7b\x7d) \x7b\n\x7d" ∧
      (AnyNode.replace ⟨switchOnLiteral⟩ 5 (.arrayType 6 none (.ident 7 "int"))).render none =
        "switch []int\x7b\x7d \x7b\n\x7d" := by
  have hnodes : AnyNode.nodes ⟨switchOnLiteral⟩ = [⟨switchOnLiteral⟩,
      ⟨.paren 2 (.composite 3 (some (.paren 4 (.ident 5 "T"))) [])⟩,
      ⟨.composite 3 (some (.paren 4 (.ident 5 "T"))) []⟩, ⟨.paren 4 (.ident 5 "T")⟩,
      ⟨.ident 5 "T"⟩] := by
    simp [nodes_eq, AnyNode.children, Node.children, switchOnLiteral]
  refine ⟨?_, ?_, ?_, by decide +kernel, by decide +kernel⟩
  · intro id t elts hmem
    rw [hnodes] at hmem
    obtain ⟨-, rfl, -⟩ : id = 3 ∧ t = .paren 4 (.ident 5 "T") ∧ elts = [] := by
      simpa [switchOnLiteral] using hmem
    decide
  · rw [hnodes]
    simp [switchOnLiteral]
  · simp [AnyNode.ids, nodes_eq, AnyNode.children, Node.children, AnyNode.id, Node.id]

end ConvSweep
