import ConvSweep.Proofs.Layout
import ConvSweep.Proofs.Slots
import ConvSweep.Text.Bytes

/-! # The layout covers the tree

Printing and walking go through a tree on their own. Where every declaration can be written down,
both meet the same nodes in the same order, up to the fields and types of interface methods, which
are printed as names and signatures.
-/

namespace ConvSweep

open AnyNode

/-! ## Every node is printed -/

/-- Whether all children of a node are printed: a declaration without a group has at most one spec,
and a range clause has a value only beside a key. -/
def AnyNode.keepsParts : AnyNode → Bool
  | ⟨.gen _ _ specs grouped⟩ => grouped || specs.length ≤ 1
  | ⟨.rangeStmt _ key value _ _ _⟩ => key.isSome || value.isNone
  | _ => true

def AnyNode.Writable (n : AnyNode) : Prop := ∀ x ∈ n.nodes, x.keepsParts = true

instance (n : AnyNode) : Decidable n.Writable :=
  inferInstanceAs (Decidable (∀ x ∈ n.nodes, x.keepsParts = true))

/-- The function type of a named method of an interface. -/
inductive MethodType (root : AnyNode) : AnyNode → Prop
  | mk {id fid ft : NodeId} {name : Ident} {names : List Ident} {params results : List (Node .field)}
      {methods : List (Node .field)} (hi : ⟨.interfaceType id methods⟩ ∈ root.nodes)
      (hf : .field fid (name :: names) (.funcType ft params results) ∈ methods) :
      MethodType root ⟨.funcType ft params results⟩

theorem MethodType.mono {m n x : AnyNode} (h : MethodType m x) (hm : m ∈ n.nodes) :
    MethodType n x := by
  obtain ⟨hi, hf⟩ := h
  exact .mk (mem_nodes_trans hm hi) hf

def Node.isInterface {c : Category} : Node c → Bool
  | .interfaceType .. => true
  | _ => false

open Piece in
theorem Node.flatMap_written {c : Category} {n : Node c} (hn : (⟨n⟩ : AnyNode).keepsParts = true)
    (hi : n.isInterface = false) (ctx : Ctx) :
    (n.written ctx).flatMap Piece.nodes = (⟨n⟩ : AnyNode).children.flatMap AnyNode.nodes := by
  cases n <;> simp only [AnyNode.children, Node.children, written, Node.pieces, List.map_append,
    Slot.map_snd_many, Slot.map_snd_one, Slot.map_snd_opt, List.flatMap_append, flatMap_map_mk]
  case interfaceType => simp [isInterface] at hi
  all_goals repeat' split
  all_goals simp_all [allNodes, keepsParts]

namespace Piece

variable {x : AnyNode}

theorem exists_sub_of_mem {ps : List Piece} (hx : x ∈ ps.flatMap nodes) :
    ∃ k ctx m, .sub k ctx m ∈ ps ∧ x ∈ m.nodes := by
  obtain ⟨p, hp, hx⟩ := List.mem_flatMap.mp hx
  cases p with
  | text s => cases hx
  | line k => cases hx
  | sub k ctx m => exact ⟨k, ctx, m, hp, hx⟩

theorem mem_flatMap_method {f : Node .field} (hx : x ∈ AnyNode.nodes ⟨f⟩)
    (hspan : x.category.hasSpan = true) :
    x ∈ (method f).flatMap nodes ∨
      ∃ id name names ft params results, f = .field id (name :: names) (.funcType ft params results) ∧
        x = ⟨.funcType ft params results⟩ := by
  unfold method
  split
  · rename_i id name names ft params results
    rcases mem_nodes_iff.mp hx with rfl | ⟨m, hm, hx⟩
    · cases hspan
    have hm : m = ⟨.funcType ft params results⟩ := by
      simpa [AnyNode.children, Node.children] using hm
    subst hm
    rcases mem_nodes_iff.mp hx with rfl | ⟨g, hg, hx⟩
    · exact Or.inr ⟨id, name, names, ft, params, results, rfl, rfl⟩
    · left
      rw [List.flatMap_cons, flatMap_paramsAndResults, allNodes, allNodes, ← List.flatMap_append]
      have hg : ∃ g' ∈ params ++ results, g = ⟨g'⟩ := by
        simpa [AnyNode.children, Node.children, eq_comm, or_and_right, exists_or] using hg
      obtain ⟨g', hg', rfl⟩ := hg
      exact List.mem_flatMap.mpr ⟨g', hg', hx⟩
  · left
    simpa using hx

end Piece

theorem Node.exists_piece_or_methodType {c : Category} {n : Node c}
    (hn : (⟨n⟩ : AnyNode).keepsParts = true) (ctx : Ctx) {x : AnyNode} (hx : x ∈ AnyNode.nodes ⟨n⟩)
    (hne : x ≠ ⟨n⟩) (hspan : x.category.hasSpan = true) :
    (∃ k ctx' m, .sub k ctx' m ∈ n.written ctx ∧ x ∈ m.nodes) ∨ MethodType ⟨n⟩ x := by
  obtain ⟨m, hm, hxm⟩ := (mem_nodes_iff.mp hx).resolve_left hne
  cases hi : n.isInterface with
  | false =>
    left
    apply Piece.exists_sub_of_mem
    rw [flatMap_written hn hi]
    exact List.mem_flatMap.mpr ⟨m, hm, hxm⟩
  | true =>
    cases n <;> simp [isInterface] at hi
    case interfaceType id methods =>
      have hf : ∃ f ∈ methods, (⟨f⟩ : AnyNode) = m := by
        simpa [AnyNode.children, Node.children] using hm
      obtain ⟨f, hf, rfl⟩ := hf
      rcases Piece.mem_flatMap_method hxm hspan with h | ⟨fid, name, names, ft, params, results, rfl, rfl⟩
      · obtain ⟨k, ctx', m, hm, hx⟩ := Piece.exists_sub_of_mem h
        exact Or.inl ⟨k, ctx', m, sub_mem_interfaceType.mpr ⟨f, hf, hm⟩, hx⟩
      · exact Or.inr (.mk (self_mem_nodes _) hf)

theorem AnyNode.Writable.of_mem {n m : AnyNode} (h : n.Writable) (hm : m ∈ n.nodes) : m.Writable :=
  fun x hx => h x (mem_nodes_trans hm hx)

theorem AnyNode.Writable.shows_or_methodType {root x : AnyNode} (h : root.Writable) (ctx : Ctx)
    (hx : x ∈ root.nodes) (hspan : x.category.hasSpan = true) :
    (∃ ctx', Shows root ctx x ctx') ∨ MethodType root x := by
  induction root using AnyNode.print_induct generalizing ctx with
  | step root ih =>
    by_cases hne : x = root
    · subst hne
      exact Or.inl ⟨ctx, .self x ctx⟩
    rcases Node.exists_piece_or_methodType (h root root.self_mem_nodes) ctx hx hne hspan with
      ⟨k, ctx', m, hm, hxm⟩ | htype
    · have hmem : m ∈ root.nodes := Node.mem_nodes_of_piece hm m.self_mem_nodes
      rcases ih _ ctx k ctx' m hm (h.of_mem hmem) ctx' hxm with ⟨ctx'', hshows⟩ | htype
      · exact Or.inl ⟨ctx'', .piece hm hshows⟩
      · exact Or.inr (htype.mono hmem)
    · exact Or.inr htype

/-! ## Where printed nodes stand -/

/-- The document is a part of the text, from the byte `start` on, and the unit knows its marks. -/
structure Doc.StandsAt (unit : SourceUnit) (start : Nat) (d : Doc) : Prop
    extends d.PlacedAt unit start where
  text : ∃ before after, Text.bytes unit.source = before ++ Text.bytes d.toString ++ after ∧
    before.length = start

namespace Doc.StandsAt

variable {unit : SourceUnit} {start : Nat} {a b : Doc}

theorem left (h : StandsAt unit start (.append a b)) : StandsAt unit start a := by
  obtain ⟨before, after, htext, hstart⟩ := h.text
  refine ⟨h.toPlacedAt.left, before, Text.bytes b.toString ++ after, ?_, hstart⟩
  rw [htext, Doc.toString, Text.bytes_append]
  simp only [List.append_assoc]

theorem right (h : StandsAt unit start (.append a b)) : StandsAt unit (start + a.width) b := by
  obtain ⟨before, after, htext, hstart⟩ := h.text
  refine ⟨h.toPlacedAt.right, before ++ Text.bytes a.toString, after, ?_, ?_⟩
  · rw [htext, Doc.toString, Text.bytes_append]
    simp only [List.append_assoc]
  · rw [List.length_append, hstart, Text.length_bytes, utf8ByteSize_toString]

theorem of_mark {c : Category} {n : Node c} {parts : List Doc}
    (h : StandsAt unit start (n.mark parts)) : StandsAt unit start (join parts) := by
  refine ⟨h.toPlacedAt.of_mark, ?_⟩
  rw [← Node.toString_mark n]
  exact h.text

theorem getElem?_text {s : String} (h : StandsAt unit start (.text s)) {i : Nat}
    (hi : i < s.utf8ByteSize) : (Text.bytes unit.source)[start + i]? = (Text.bytes s)[i]? := by
  obtain ⟨before, after, htext, hstart⟩ := h.text
  have hlen : i < (Text.bytes s).length := by rwa [Text.length_bytes]
  rw [htext, Doc.toString, List.append_assoc, List.getElem?_append_right (by omega),
    List.getElem?_append_left (by omega)]
  congr 1
  omega

end Doc.StandsAt

theorem Node.span?_of_standsAt {unit : SourceUnit} {c : Category} {n : Node c} (hc : c.hasSpan = true)
    {depth start : Nat} {ctx : Ctx} (h : (n.doc .faithful depth ctx).StandsAt unit start) :
    unit.span? n.id = some ⟨start, start + (n.doc .faithful depth ctx).width⟩ :=
  h.span _ (mem_spans_doc.mpr (Or.inr ⟨hc, rfl⟩))

theorem Piece.standsAt_of_mem {unit : SourceUnit} {depth start k : Nat} {ctx : Ctx} {m : AnyNode}
    {ps : List Piece} (h : (row depth ps).StandsAt unit start) (hm : .sub k ctx m ∈ ps) :
    ∃ o, (m.node.doc .faithful (depth + k) ctx).StandsAt unit o ∧ start ≤ o ∧
      o + (m.node.doc .faithful (depth + k) ctx).width ≤ start + (row depth ps).width := by
  induction ps generalizing start with
  | nil => cases hm
  | cons p ps ih =>
    have hwidth : (row depth (p :: ps)).width =
        (p.doc .faithful depth).width + (row depth ps).width := rfl
    rcases List.mem_cons.mp hm with rfl | hm
    · refine ⟨start, h.left, Nat.le_refl _, ?_⟩
      rw [hwidth]
      exact Nat.add_le_add_left (Nat.le_add_right _ _) start
    · obtain ⟨o, ho, hle, hstop⟩ := ih h.right hm
      exact ⟨o, ho, by omega, by omega⟩

theorem Shows.standsAt {unit : SourceUnit} {n x : AnyNode} {ctx ctx' : Ctx} {depth start : Nat}
    (hx : Shows n ctx x ctx') (h : (n.node.doc .faithful depth ctx).StandsAt unit start) :
    ∃ depth' o, (x.node.doc .faithful depth' ctx').StandsAt unit o := by
  induction hx generalizing depth start with
  | self => exact ⟨depth, start, h⟩
  | piece hm _ ih =>
    rw [Node.doc_faithful] at h
    obtain ⟨o, ho, -⟩ := Piece.standsAt_of_mem h.of_mark hm
    exact ih ho

theorem SourceUnit.Printed.standsAt {unit : SourceUnit} (h : unit.Printed)
    (hids : DistinctIds ⟨unit.file⟩) : unit.file.layoutDoc.StandsAt unit 0 := by
  refine ⟨h.placedAt hids, [], [], ?_, rfl⟩
  rw [h.source]
  simp [Node.layout]

/-! ## Calls -/

/-- A call in the text: the callee, right after it the opening parenthesis, the arguments, and the
closing parenthesis, which ends the call. -/
structure SourceUnit.CallPlaced (unit : SourceUnit) (id : NodeId) (callee : Expr) (args : List Expr)
    (spread : Bool) (start : Nat) (p : ParenPair) : Prop where
  parens : unit.parens? id = some p
  callee : unit.span? callee.id = some ⟨start, p.lparen⟩
  call : unit.span? id = some ⟨start, p.rparen + 1⟩
  opens : (Text.bytes unit.source)[p.lparen]? = some '('.toUInt8
  closes : (Text.bytes unit.source)[p.rparen]? = some ')'.toUInt8
  between : ∀ a ∈ args, ∃ t, unit.span? a.id = some t ∧ p.lparen + 1 ≤ t.start ∧ t.stop ≤ p.rparen
  alone : spread = false → ∀ a, args = [a] → unit.span? a.id = some ⟨p.lparen + 1, p.rparen⟩

namespace Doc

variable {as bs : List Doc}

theorem width_join_append : (join (as ++ bs)).width = (join as).width + (join bs).width := by
  induction as with
  | nil => simp [width]
  | cons a as ih => simp [width, ih, Nat.add_assoc]

theorem toString_join_append :
    (join (as ++ bs)).toString = (join as).toString ++ (join bs).toString := by
  induction as with
  | nil => simp [toString]
  | cons a as ih => simp [toString, ih, String.append_assoc]

theorem spans_join_append (start : Nat) : (join (as ++ bs)).spans start =
    (join as).spans start ++ (join bs).spans (start + (join as).width) := by
  induction as generalizing start with
  | nil => simp [spans, width]
  | cons a as ih => simp [spans, ih, width, Nat.add_assoc]

theorem parenPairs_join_append (start : Nat) : (join (as ++ bs)).parenPairs start =
    (join as).parenPairs start ++ (join bs).parenPairs (start + (join as).width) := by
  induction as generalizing start with
  | nil => simp [parenPairs, width]
  | cons a as ih => simp [parenPairs, ih, width, Nat.add_assoc]

theorem StandsAt.join_append {unit : SourceUnit} {start : Nat}
    (h : StandsAt unit start (join (as ++ bs))) :
    StandsAt unit start (.append (join as) (join bs)) := by
  obtain ⟨⟨hspan, hparens⟩, htext⟩ := h
  rw [spans_join_append] at hspan
  rw [parenPairs_join_append] at hparens
  rw [toString_join_append] at htext
  exact ⟨⟨hspan, hparens⟩, htext⟩

end Doc

theorem Node.doc_call_args (id : NodeId) (callee : Expr) (args : List Expr) (spread : Bool)
    (depth : Nat) (ctx : Ctx) :
    (Node.call id callee args spread).doc .faithful depth ctx =
      .span id (.append (callee.doc .faithful depth (ctx.prec primaryPrec))
        (.parens id (.append (.text "(")
          (Piece.row depth (Piece.exprs .plain args ++ [.text (closing spread)]))))) := by
  rw [doc_faithful]
  rfl

theorem getElem?_closing (spread : Bool) :
    (Text.bytes (closing spread))[(closing spread).utf8ByteSize - 1]? = some ')'.toUInt8 := by
  cases spread
  · rfl
  · rfl

theorem closing_pos (spread : Bool) : 0 < (closing spread).utf8ByteSize := by
  cases spread
  · decide
  · decide

namespace Piece

variable {unit : SourceUnit} {depth start : Nat} {ps qs : List Piece}

theorem width_row_append : (row depth (ps ++ qs)).width = (row depth ps).width + (row depth qs).width := by
  rw [row, List.map_append, Doc.width_join_append]

theorem standsAt_row_append (h : (row depth (ps ++ qs)).StandsAt unit start) :
    (row depth ps).StandsAt unit start ∧
      (row depth qs).StandsAt unit (start + (row depth ps).width) := by
  rw [row, List.map_append] at h
  exact ⟨h.join_append.left, h.join_append.right⟩

end Piece

theorem Doc.StandsAt.callPlaced {unit : SourceUnit} {id : NodeId} {callee : Expr} {args : List Expr}
    {spread : Bool} {depth start : Nat} {ctx : Ctx}
    (h : ((Node.call id callee args spread).doc .faithful depth ctx).StandsAt unit start) :
    ∃ p, unit.CallPlaced id callee args spread start p := by
  have hcall := Node.span?_of_standsAt rfl h
  rw [Node.doc_call_args] at h hcall
  have hparens := h.parens (id, _)
    (List.mem_append_right _ (List.mem_append_right _ (List.mem_singleton.mpr rfl)))
  -- The call is its parts with two records around them, its span and its parentheses.
  have hin : (Doc.append (callee.doc .faithful depth (ctx.prec primaryPrec)) (.append (.text "(")
      (Piece.row depth (Piece.exprs .plain args ++ [.text (closing spread)])))).StandsAt unit start := by
    refine ⟨⟨fun p hp => h.span p (List.mem_append_left _ hp), fun p hp => h.parens p ?_⟩, h.text⟩
    rcases List.mem_append.mp hp with hp | hp
    · exact List.mem_append_left _ hp
    · exact List.mem_append_right _ (List.mem_append_left _ hp)
  obtain ⟨hargs, hclose⟩ := Piece.standsAt_row_append hin.right.right
  have hopens := hin.right.left.getElem?_text (i := 0) (by decide)
  have hcloses := hclose.left.getElem?_text (Nat.sub_lt (closing_pos spread) Nat.one_pos)
  have hpos := closing_pos spread
  have hone : "(".utf8ByteSize = 1 := rfl
  have hwidth : (Piece.row depth (Piece.exprs .plain args ++ [.text (closing spread)])).width =
      (Piece.row depth (Piece.exprs .plain args)).width + (closing spread).utf8ByteSize :=
    Piece.width_row_append
  simp only [Doc.width, hwidth, hone] at hcall hparens hargs hcloses
  refine ⟨⟨_, _⟩, ?_, Node.span?_of_standsAt rfl hin.left, ?_, hopens,
    hcloses.trans (getElem?_closing spread), ?_, ?_⟩
  · rw [hparens]
    congr 2
    omega
  · refine hcall.trans ?_
    congr 2
    simp only
    omega
  · intro a ha
    have hmem : .sub 0 (Ctx.plain.prec 0) ⟨a⟩ ∈ Piece.exprs .plain args :=
      Piece.sub_mem_exprs.mpr ⟨rfl, rfl, a, ha, rfl⟩
    obtain ⟨o, ho, hle, hstop⟩ := Piece.standsAt_of_mem hargs hmem
    exact ⟨_, Node.span?_of_standsAt rfl ho, hle, Nat.le_trans hstop (Nat.le_add_right _ _)⟩
  · rintro rfl a rfl
    have hspan : unit.span? a.id = some ⟨_, _⟩ := Node.span?_of_standsAt rfl hargs.left
    rw [hspan]
    rfl

/-! ## Order -/

theorem pairwise_of_sublist {α : Type} {R : α → α → Prop} {as bs : List α} (h : as.Sublist bs)
    (hbs : bs.Nodup) (has : as.Pairwise R)
    (hout : ∀ x ∈ bs, ∀ y ∈ bs, ¬ (x ∈ as ∧ y ∈ as) → R x y) : bs.Pairwise R := by
  induction h with
  | slnil => exact .nil
  | @cons as bs a hsub ih =>
    obtain ⟨ha, hbs⟩ := List.nodup_cons.mp hbs
    refine List.pairwise_cons.mpr ⟨fun y hy => ?_, ih hbs has fun x hx y hy => ?_⟩
    · exact hout a (by simp) y (by simp [hy]) fun h => ha (hsub.subset h.1)
    · exact hout x (by simp [hx]) y (by simp [hy])
  | @cons_cons as bs a hsub ih =>
    obtain ⟨ha, hbs⟩ := List.nodup_cons.mp hbs
    obtain ⟨hhead, has⟩ := List.pairwise_cons.mp has
    have hne : ∀ y ∈ bs, y ≠ a := by
      rintro y hy rfl
      exact ha hy
    refine List.pairwise_cons.mpr ⟨fun y hy => ?_, ih hbs has fun x hx y hy hxy => ?_⟩
    · by_cases hmem : y ∈ as
      · exact hhead y hmem
      · exact hout a (by simp) y (by simp [hy]) (by simp [hne y hy, hmem])
    · exact hout x (by simp [hx]) y (by simp [hy]) (by simpa [hne x hx, hne y hy] using hxy)

/-- What the document records of `x` ends before what it records of `y` begins, unless `y` is a part
of `x`. -/
def Doc.Orders (d : Doc) (start : Nat) (x y : AnyNode) : Prop :=
  y ∈ x.nodes ∨ ∀ s t, (x.id, s) ∈ d.spans start → (y.id, t) ∈ d.spans start → s.stop ≤ t.start

theorem Doc.Orders.of_spans {d d' : Doc} {start start' : Nat} {x y : AnyNode} (h : d'.Orders start' x y)
    (hx : ∀ s, (x.id, s) ∈ d.spans start → (x.id, s) ∈ d'.spans start')
    (hy : ∀ t, (y.id, t) ∈ d.spans start → (y.id, t) ∈ d'.spans start') : d.Orders start x y :=
  h.imp_right fun h s t hs ht => h s t (hx s hs) (hy t ht)

theorem Piece.pairwise_orders {depth start : Nat} {ps : List Piece}
    (hids : ((ps.flatMap Piece.nodes).map (·.id)).Nodup)
    (hsub : ∀ k ctx m, .sub k ctx m ∈ ps → ∀ o,
      m.nodes.Pairwise ((m.node.doc .faithful (depth + k) ctx).Orders o)) :
    (ps.flatMap Piece.nodes).Pairwise ((row depth ps).Orders start) := by
  induction ps generalizing start with
  | nil => exact .nil
  | cons p ps ih =>
    rw [List.flatMap_cons, List.map_append, List.nodup_append] at hids
    obtain ⟨-, htail, hapart⟩ := hids
    -- What is below the first piece is recorded there, everything else later.
    have hfirst : ∀ x ∈ p.nodes, ∀ s, (x.id, s) ∈ (row depth (p :: ps)).spans start →
        (x.id, s) ∈ (p.doc .faithful depth).spans start := by
      intro x hx s hs
      refine (List.mem_append.mp hs).resolve_right fun hs => ?_
      obtain ⟨k, ctx, m, o, hm, hsm⟩ := exists_of_mem_spans_row hs
      obtain ⟨z, hz, hzx⟩ := mem_ids_iff.mp (id_mem_of_span hsm)
      have hzps : z ∈ ps.flatMap Piece.nodes := List.mem_flatMap.mpr ⟨_, hm, hz⟩
      exact hapart x.id (List.mem_map_of_mem hx) z.id (List.mem_map_of_mem hzps) hzx.symm
    have hlater : ∀ y ∈ ps.flatMap Piece.nodes, ∀ t, (y.id, t) ∈ (row depth (p :: ps)).spans start →
        (y.id, t) ∈ (row depth ps).spans (start + (p.doc .faithful depth).width) := by
      intro y hy t ht
      refine (List.mem_append.mp ht).resolve_left fun ht => ?_
      cases p with
      | text s => cases ht
      | line k => cases ht
      | sub k ctx m =>
        have hym : y.id ∈ (Piece.sub k ctx m).nodes.map (·.id) := id_mem_of_span ht
        exact hapart y.id hym y.id (List.mem_map_of_mem hy) rfl
    rw [List.flatMap_cons, List.pairwise_append]
    refine ⟨?_, ?_, ?_⟩
    · cases p with
      | text s => exact .nil
      | line k => exact .nil
      | sub k ctx m =>
        exact (hsub k ctx m List.mem_cons_self start).imp_of_mem fun hx hy h =>
          h.of_spans (hfirst _ hx) (hfirst _ hy)
    · exact (ih htail fun k ctx m hm => hsub k ctx m (List.mem_cons_of_mem _ hm)).imp_of_mem
        fun hx hy h => h.of_spans (hlater _ hx) (hlater _ hy)
    · intro x hx y hy
      right
      intro s t hs ht
      have hs := Doc.spans_inside _ _ _ (hfirst x hx s hs)
      have ht := Doc.spans_inside _ _ _ (hlater y hy t ht)
      exact Nat.le_trans hs.2.2 ht.1

theorem AnyNode.DistinctIds.pairwise_orders {root : AnyNode} (hroot : root.DistinctIds)
    (depth start : Nat) (ctx : Ctx) :
    root.nodes.Pairwise ((root.node.doc .faithful depth ctx).Orders start) := by
  induction root using AnyNode.print_induct generalizing depth start ctx with
  | step root ih =>
    have hnodup : root.nodes.Nodup := List.Nodup.of_map _ hroot
    rw [nodes_eq] at hnodup ⊢
    obtain ⟨hself, hnodup⟩ := List.nodup_cons.mp hnodup
    have hbelow : ∀ x ∈ root.children.flatMap nodes, x ∈ root.nodes := by
      intro x hx
      rw [nodes_eq]
      exact List.mem_cons_of_mem _ hx
    have hrow : ∀ x ∈ root.children.flatMap nodes, ∀ s,
        (x.id, s) ∈ (root.node.doc .faithful depth ctx).spans start →
        (x.id, s) ∈ (Piece.row depth (root.node.written ctx)).spans start := by
      intro x hx s
      refine mem_spans_row_of_ne hroot (hbelow x hx) ?_
      rintro rfl
      exact hself hx
    have hsublist := root.node.flatMap_pieces (fun _ _ => true) ctx
    refine List.pairwise_cons.mpr ⟨fun y hy => Or.inl (hbelow y hy),
      pairwise_of_sublist hsublist hnodup ?_ fun x hx y hy hout => Or.inr fun s t hs ht => ?_⟩
    · refine (Piece.pairwise_orders (nodup_pieces hroot ctx) fun k ctx' m hm o => ?_).imp_of_mem
        fun hx hy h => h.of_spans (hrow _ (hsublist.subset hx)) (hrow _ (hsublist.subset hy))
      exact ih _ ctx k ctx' m hm (hroot.of_mem (Node.mem_nodes_of_piece hm m.self_mem_nodes)) _ o ctx'
    · -- What is recorded is among the pieces.
      have hmem : ∀ x ∈ root.children.flatMap nodes, ∀ s,
          (x.id, s) ∈ (root.node.doc .faithful depth ctx).spans start →
          x ∈ (root.node.written ctx).flatMap Piece.nodes := by
        intro x hx s hs
        obtain ⟨k, ctx', m, o, hm, hsm⟩ := Piece.exists_of_mem_spans_row (hrow x hx s hs)
        refine List.mem_flatMap.mpr ⟨_, hm, ?_⟩
        exact hroot.mem_of_id (Node.mem_nodes_of_piece hm m.self_mem_nodes) (hbelow x hx)
          (id_mem_of_span hsm)
      exact (hout ⟨hmem x hx s hs, hmem y hy t ht⟩).elim

theorem AnyNode.nodes_sublist {n m : AnyNode} (hm : m ∈ n.nodes) : m.nodes.Sublist n.nodes := by
  induction n using AnyNode.induct with
  | step n ih =>
    rcases mem_nodes_iff.mp hm with rfl | ⟨c, hc, hmc⟩
    · exact List.Sublist.refl _
    · rw [nodes_eq n]
      apply List.Sublist.cons
      exact (ih c hc hmc).trans (List.sublist_flatten_of_mem (List.mem_map_of_mem hc))

/-- The recorded spans below one node end before those below the other begin. -/
def SourceUnit.Precedes (unit : SourceUnit) (a b : AnyNode) : Prop :=
  ∀ x ∈ a.nodes, ∀ y ∈ b.nodes, ∀ s ∈ unit.span? x.id, ∀ t ∈ unit.span? y.id, s.stop ≤ t.start

theorem SourceUnit.Printed.pairwise_precedes {unit : SourceUnit} (h : unit.Printed)
    (hids : DistinctIds ⟨unit.file⟩) {n : AnyNode} (hn : n ∈ AnyNode.nodes ⟨unit.file⟩) :
    n.children.Pairwise unit.Precedes := by
  have horders := (hids.pairwise_orders 0 0 .plain).sublist (nodes_sublist hn)
  rw [nodes_eq, List.pairwise_cons, List.pairwise_flatMap] at horders
  refine (horders.2.2.and (hids.of_mem hn).nodup_children).imp_of_mem ?_
  rintro a b ha hb ⟨hab, hne⟩ x hx y hy s hs t ht
  rcases hab x hx y hy with hyx | horder
  · exact (hne ((hids.of_mem hn).children_eq ha hb (mem_nodes_trans hx hyx) hy)).elim
  · exact horder s t (h.mem_spans hs) (h.mem_spans ht)

/-! ## Nothing else is recorded -/

theorem Piece.exists_of_mem_parenPairs_row {depth start : Nat} {ps : List Piece}
    {p : NodeId × ParenPair} (hp : p ∈ (row depth ps).parenPairs start) :
    ∃ k ctx m o, .sub k ctx m ∈ ps ∧ p ∈ (m.node.doc .faithful (depth + k) ctx).parenPairs o := by
  induction ps generalizing start with
  | nil => cases hp
  | cons q ps ih =>
    rcases List.mem_append.mp hp with hp | hp
    · cases q with
      | text s => cases hp
      | line k => cases hp
      | sub k ctx m => exact ⟨k, ctx, m, start, List.mem_cons_self, hp⟩
    · obtain ⟨k, ctx, m, o, hm, hp⟩ := ih hp
      exact ⟨k, ctx, m, o, List.mem_cons_of_mem _ hm, hp⟩

theorem Node.mem_parenPairs_doc {c : Category} {n : Node c} {depth start : Nat} {ctx : Ctx}
    {p : NodeId × ParenPair} (hp : p ∈ (n.doc .faithful depth ctx).parenPairs start) :
    p ∈ (Piece.row depth (n.written ctx)).parenPairs start ∨ (n.isCall = true ∧ p.1 = n.id) := by
  rw [doc_faithful] at hp
  cases hcall : n.isCall with
  | true =>
    cases n <;> simp [isCall] at hcall
    case call id callee args spread =>
      rcases List.mem_append.mp hp with hp | hp
      · exact Or.inl (List.mem_append_left _ hp)
      · rcases List.mem_append.mp hp with hp | hp
        · exact Or.inl (List.mem_append_right _ hp)
        · exact Or.inr ⟨rfl, congrArg Prod.fst (List.mem_singleton.mp hp)⟩
  | false =>
    left
    rw [mark_of_not_call hcall] at hp
    split at hp
    · exact hp
    · exact hp

theorem AnyNode.exists_call_of_parens {root : AnyNode} {depth start : Nat} {ctx : Ctx}
    {p : NodeId × ParenPair} (hp : p ∈ (root.node.doc .faithful depth ctx).parenPairs start) :
    ∃ callee args spread, ⟨.call p.1 callee args spread⟩ ∈ root.nodes := by
  induction root using AnyNode.print_induct generalizing depth start ctx with
  | step root ih =>
    rcases Node.mem_parenPairs_doc hp with hrow | ⟨hcall, hid⟩
    · obtain ⟨k, ctx', m, o, hm, hp⟩ := Piece.exists_of_mem_parenPairs_row hrow
      obtain ⟨callee, args, spread, hmem⟩ := ih _ ctx k ctx' m hm hp
      exact ⟨callee, args, spread, Node.mem_nodes_of_piece hm hmem⟩
    · obtain ⟨n⟩ := root
      cases n <;> simp [Node.isCall] at hcall
      case call id callee args spread =>
        rw [hid]
        exact ⟨callee, args, spread, self_mem_nodes _⟩

theorem AnyNode.exists_hasSpan_of_span {root : AnyNode} {depth start : Nat} {ctx : Ctx}
    {p : NodeId × Span} (hp : p ∈ (root.node.doc .faithful depth ctx).spans start) :
    ∃ m ∈ root.nodes, m.id = p.1 ∧ m.category.hasSpan = true := by
  induction root using AnyNode.print_induct generalizing depth start ctx with
  | step root ih =>
    rcases Node.mem_spans_doc.mp hp with hrow | ⟨hspan, rfl⟩
    · obtain ⟨k, ctx', m, o, hm, hp⟩ := Piece.exists_of_mem_spans_row hrow
      obtain ⟨x, hx, hid, hspan⟩ := ih _ ctx k ctx' m hm hp
      exact ⟨x, Node.mem_nodes_of_piece hm hx, hid, hspan⟩
    · exact ⟨root, root.self_mem_nodes, rfl, hspan⟩

theorem method_mem_children {id : NodeId} {methods : List (Node .field)} {f : Node .field}
    (hf : f ∈ methods) : ⟨f⟩ ∈ AnyNode.children ⟨.interfaceType id methods⟩ := by
  simpa [AnyNode.children, Node.children] using hf

theorem type_mem_nodes_field {id : NodeId} {names : List Ident} {type : Expr} :
    ⟨type⟩ ∈ AnyNode.nodes ⟨.field id names type⟩ := by
  apply child_mem_nodes
  simp [AnyNode.children, Node.children]

theorem not_mem_pieces_of_method {id fid ft : NodeId} {name : Ident} {names : List Ident}
    {params results methods : List (Node .field)} (hids : DistinctIds ⟨.interfaceType id methods⟩)
    (hf : .field fid (name :: names) (.funcType ft params results) ∈ methods) {k : Nat}
    {ctx ctx' : Ctx} {m : AnyNode}
    (hm : .sub k ctx' m ∈ (Node.interfaceType id methods).written ctx) :
    ⟨.funcType ft params results⟩ ∉ m.nodes := by
  intro hx
  obtain ⟨f', hf', hm⟩ := Node.sub_mem_interfaceType.mp hm
  have hxf' := (Piece.flatMap_method f').subset (List.mem_flatMap.mpr ⟨_, hm, hx⟩)
  have heq := hids.children_eq (method_mem_children hf') (method_mem_children hf) hxf'
    type_mem_nodes_field
  cases heq
  simp only [Piece.method, List.mem_cons, reduceCtorEq, Piece.sub_mem_paramsAndResults, false_or] at hm
  obtain ⟨-, -, g, hg, rfl⟩ := hm
  refine not_mem_nodes_child ?_ hx
  simpa [AnyNode.children, Node.children] using hg

theorem MethodType.not_recorded {root x : AnyNode} (h : MethodType root x) (hroot : root.DistinctIds)
    (hw : root.Writable) {depth start : Nat} {ctx : Ctx} {s : Span} :
    (x.id, s) ∉ (root.node.doc .faithful depth ctx).spans start := by
  induction root using AnyNode.print_induct generalizing depth start ctx with
  | step root ih =>
    intro hs
    obtain @⟨id, fid, ft, name, names, params, results, methods, hi, hf⟩ := h
    have hxi : ⟨.funcType ft params results⟩ ∈ AnyNode.nodes ⟨.interfaceType id methods⟩ :=
      mem_nodes_of_child (method_mem_children hf) type_mem_nodes_field
    have hx := mem_nodes_trans hi hxi
    have hne : (⟨.funcType ft params results⟩ : AnyNode) ≠ root := by
      rintro rfl
      cases nodes_antisymm hi hxi
    obtain ⟨k, ctx', m, o, hm, hsm⟩ :=
      Piece.exists_of_mem_spans_row (mem_spans_row_of_ne hroot hx hne hs)
    have hmem : m ∈ root.nodes := Node.mem_nodes_of_piece hm m.self_mem_nodes
    have hxm := hroot.mem_of_id hmem hx (id_mem_of_span hsm)
    by_cases hroot_eq : (⟨.interfaceType id methods⟩ : AnyNode) = root
    · subst hroot_eq
      exact not_mem_pieces_of_method hroot hf hm hxm
    · rcases Node.exists_piece_or_methodType (hw root root.self_mem_nodes) ctx hi hroot_eq rfl with
        ⟨k', ctx'', m', hm', him'⟩ | htype
      · -- Both pieces hold the type, so they are the same.
        have hnodup : ((root.node.written ctx).flatMap Piece.nodes).Nodup :=
          List.Nodup.of_map _ (nodup_pieces hroot ctx)
        have heq := eq_of_nodup_flatMap hnodup hm hm' hxm (mem_nodes_trans him' hxi)
        cases heq
        exact ih _ ctx k ctx' m hm (.mk him' hf) (hroot.of_mem hmem) (hw.of_mem hmem) hsm
      · cases htype

/-! ## The layout of a file -/

/-- The positions cover the tree as it is walked. What has an extent has a span, except the types of
methods, and the calls have their parentheses. A node lies within its ancestors, and what is below
the children of a node follows the order of the children. -/
structure SourceUnit.CoversTree (unit : SourceUnit) : Prop where
  spans : ∀ n ∈ AnyNode.nodes ⟨unit.file⟩, (unit.span? n.id).isSome = true ↔
    n.category.hasSpan = true ∧ ¬ MethodType ⟨unit.file⟩ n
  parens : ∀ id, (unit.parens? id).isSome = true ↔
    ∃ callee args spread, ⟨.call id callee args spread⟩ ∈ AnyNode.nodes ⟨unit.file⟩
  within : ∀ n ∈ AnyNode.nodes ⟨unit.file⟩, ∀ m ∈ n.nodes,
    ∀ s ∈ unit.span? m.id, ∀ t ∈ unit.span? n.id, s.Within t
  ordered : ∀ n ∈ AnyNode.nodes ⟨unit.file⟩, n.children.Pairwise unit.Precedes
  calls : ∀ id callee args spread,
    ⟨.call id callee args spread⟩ ∈ AnyNode.nodes ⟨unit.file⟩ →
      ∃ start p, unit.CallPlaced id callee args spread start p

namespace SourceUnit.Printed

variable {unit : SourceUnit}

theorem standsAt_of_mem (h : unit.Printed) (hids : DistinctIds ⟨unit.file⟩)
    (hw : Writable ⟨unit.file⟩) {n : AnyNode} (hn : n ∈ AnyNode.nodes ⟨unit.file⟩)
    (hspan : n.category.hasSpan = true) (htype : ¬ MethodType ⟨unit.file⟩ n) :
    ∃ depth ctx start, (n.node.doc .faithful depth ctx).StandsAt unit start := by
  obtain ⟨ctx, hshows⟩ := (hw.shows_or_methodType .plain hn hspan).resolve_right htype
  obtain ⟨depth, start, hstands⟩ := hshows.standsAt (h.standsAt hids)
  exact ⟨depth, ctx, start, hstands⟩

theorem callPlaced (h : unit.Printed) (hids : DistinctIds ⟨unit.file⟩)
    (hw : Writable ⟨unit.file⟩) {id : NodeId} {callee : Expr} {args : List Expr} {spread : Bool}
    (hn : ⟨.call id callee args spread⟩ ∈ AnyNode.nodes ⟨unit.file⟩) :
    ∃ start p, unit.CallPlaced id callee args spread start p := by
  obtain ⟨depth, ctx, start, hstands⟩ := h.standsAt_of_mem hids hw hn rfl nofun
  exact ⟨start, hstands.callPlaced⟩

end SourceUnit.Printed

/-- Where a file is printed as it stands and all of it can be written, its positions cover the tree. -/
theorem layout_covers_tree {unit : SourceUnit} (h : unit.Printed) (hids : DistinctIds ⟨unit.file⟩)
    (hw : Writable ⟨unit.file⟩) : unit.CoversTree where
  spans n hn := by
    rw [Option.isSome_iff_exists]
    constructor
    · rintro ⟨s, hs⟩
      have hmem : (n.id, s) ∈ ((⟨unit.file⟩ : AnyNode).node.doc .faithful 0 .plain).spans 0 :=
        h.mem_spans hs
      obtain ⟨m, hm, hid, hspan⟩ := exists_hasSpan_of_span hmem
      obtain rfl := hids.eq_of_id hm hn hid
      exact ⟨hspan, fun htype => htype.not_recorded hids hw hmem⟩
    · rintro ⟨hspan, htype⟩
      obtain ⟨depth, ctx, start, hstands⟩ := h.standsAt_of_mem hids hw hn hspan htype
      exact ⟨_, Node.span?_of_standsAt hspan hstands⟩
  parens id := by
    rw [Option.isSome_iff_exists]
    constructor
    · rintro ⟨p, hp⟩
      have hmem : (id, p) ∈ ((⟨unit.file⟩ : AnyNode).node.doc .faithful 0 .plain).parenPairs 0 :=
        h.mem_parenPairs hp
      exact exists_call_of_parens hmem
    · rintro ⟨callee, args, spread, hn⟩
      obtain ⟨start, p, hplaced⟩ := h.callPlaced hids hw hn
      exact ⟨p, hplaced.parens⟩
  within n hn m hm s hs t ht := span_within hids hn hm (h.mem_spans ht) (h.mem_spans hs)
  ordered n hn := h.pairwise_precedes hids hn
  calls id callee args spread hn := h.callPlaced hids hw hn

/-- An interface with a method, a group of two variables, and a range over a call inside a call. -/
def surveyedFile : File :=
  .file 1 ⟨2, "p"⟩
    [.gen 3 .type [.typeSpec 4 ⟨5, "I"⟩ false (.interfaceType 6
      [.field 7 [⟨8, "m"⟩] (.funcType 9 [.field 10 [⟨11, "x"⟩] (.ident 12 "int")] []),
        .field 13 [] (.ident 14 "J")])] false,
    .gen 15 .var [.valueSpec 16 [⟨17, "a"⟩] none [.basicLit 18 .int "1"],
      .valueSpec 19 [⟨20, "b"⟩] (some (.ident 21 "int")) []] true,
    .func 22 none ⟨23, "f"⟩ (.signature 24 [] []) (some (.block 25
      [.rangeStmt 26 (some (.ident 27 "k")) (some (.ident 28 "v")) true
        (.call 29 (.ident 30 "T")
          [.call 31 (.ident 32 "g") [.ident 33 "a", .ident 34 "b"] true] false)
        (.block 35 [])]))]

theorem surveyedFile_covered :
    DistinctIds ⟨surveyedFile⟩ ∧ Writable ⟨surveyedFile⟩ ∧
      (SourceUnit.ofFile ⟨"p/f.go"⟩ surveyedFile ⟨.empty, .empty⟩).CoversTree ∧
      (SourceUnit.ofFile ⟨"p/f.go"⟩ surveyedFile ⟨.empty, .empty⟩).span? 9 = none := by
  have hids : DistinctIds ⟨surveyedFile⟩ := by decide +kernel
  have hw : Writable ⟨surveyedFile⟩ := by decide +kernel
  exact ⟨hids, hw, layout_covers_tree (SourceUnit.printed_ofFile _ _ _) hids hw, by decide +kernel⟩

end ConvSweep
