import Mathlib.Data.List.Perm.Subperm
import ConvSweep.Proofs.Pieces
import ConvSweep.SourceUnit

/-! # Where the layout puts nodes

The layout of a file with distinct ids records every mark once, so looking a node up gives the
place where it was printed.
-/

namespace ConvSweep

/-! ## Printing node by node -/

theorem AnyNode.print_induct {motive : AnyNode → Prop}
    (step : ∀ n : AnyNode, (∀ shows ctx k ctx' m, .sub k ctx' m ∈ n.node.pieces shows ctx → motive m) →
      motive n) (n : AnyNode) : motive n :=
  step n fun shows ctx k ctx' m hm =>
    have := n.node.smaller_pieces shows ctx _ hm k ctx' m rfl
    AnyNode.print_induct step m
termination_by sizeOf n.node

theorem Node.doc_faithful {c : Category} (n : Node c) (depth : Nat) (ctx : Ctx) :
    n.doc .faithful depth ctx = n.mark ((n.written ctx).map (Piece.doc .faithful depth)) := by
  rw [Node.doc_eq]
  simp only [Style.standInFor, Style.faithful, ite_self]

theorem Node.toString_mark {c : Category} (n : Node c) (parts : List Doc) :
    (n.mark parts).toString = (Doc.join parts).toString := by
  unfold mark
  split
  · rfl
  · split <;> rfl

theorem Piece.map_doc_of_aligned {R : Ctx → Ctx → Prop} {style : Style} {depth : Nat}
    {ps qs : List Piece} (h : List.Forall₂ (Aligned R) ps qs)
    (hsub : ∀ k ctx m, .sub k ctx m ∈ ps → ∀ depth ctx ctx',
      m.node.doc style depth ctx = m.node.doc style depth ctx') :
    ps.map (Piece.doc style depth) = qs.map (Piece.doc style depth) := by
  induction h with
  | nil => rfl
  | cons hpq _ ih =>
    rw [List.map_cons, List.map_cons, ih fun k ctx m hm => hsub k ctx m (List.mem_cons_of_mem _ hm)]
    congr 1
    cases hpq with
    | text s => rfl
    | line k => rfl
    | sub k m _ => exact hsub k _ m List.mem_cons_self _ _ _

theorem Node.doc_faithful_ctx {c : Category} (n : Node c) (depth : Nat) (ctx ctx' : Ctx) :
    n.doc .faithful depth ctx = n.doc .faithful depth ctx' := by
  suffices h : ∀ n : AnyNode, ∀ depth ctx ctx',
      n.node.doc .faithful depth ctx = n.node.doc .faithful depth ctx' from h ⟨n⟩ depth ctx ctx'
  intro n
  induction n using AnyNode.print_induct with
  | step n ih =>
    intro depth ctx ctx'
    rw [doc_faithful, doc_faithful]
    by_cases hn : n.node.isParen = true
    · obtain ⟨n⟩ := n
      cases n <;> simp [isParen] at hn
      rfl
    have hR : Ctx.Inherited fun _ _ => True :=
      ⟨fun _ => trivial, fun _ _ => trivial, fun _ _ _ => trivial⟩
    have hal : List.Forall₂ (Piece.Aligned fun _ _ => True) (n.node.written ctx) (n.node.written ctx') :=
      n.node.pieces_aligned hR _ _ trivial (by simpa using hn)
    rw [Piece.map_doc_of_aligned hal fun k ctx₁ m hm => ih _ ctx k ctx₁ m hm]

/-! ## Marks and ids -/

def Node.isCall {c : Category} : Node c → Bool
  | .call .. => true
  | _ => false

theorem Node.mark_of_not_call {c : Category} {n : Node c} (h : n.isCall = false) (parts : List Doc) :
    n.mark parts = if c.hasSpan then .span n.id (.join parts) else .join parts := by
  cases n <;> first | rfl | simp [isCall] at h

namespace Doc

@[simp] theorem join_nil : join [] = .nil := rfl
@[simp] theorem append_eq (a b : Doc) : a ++ b = .append a b := rfl
@[simp] theorem join_cons (d : Doc) (ds : List Doc) : join (d :: ds) = .append d (join ds) := rfl

/-- A list of ids that is read off the marks of a document: in order, and at most one for each
node. -/
structure Collects (f : Nat → Doc → List NodeId) : Prop where
  nil (start : Nat) : f start .nil = []
  text (start : Nat) (s : String) : f start (.text s) = []
  append (start : Nat) (a b : Doc) : f start (.append a b) = f start a ++ f (start + a.width) b
  mark {c : Category} (start : Nat) (n : Node c) (parts : List Doc) :
    f start (n.mark parts) = f start (join parts) ∨
      f start (n.mark parts) = f start (join parts) ++ [n.id]

theorem Collects.subperm_join {f : Nat → Doc → List NodeId} (hf : Collects f) (ps : List Piece)
    (depth : Nat) (h : ∀ k ctx m, .sub k ctx m ∈ ps → ∀ start depth,
      (f start (m.node.doc .faithful depth ctx)).Subperm m.ids) (start : Nat) :
    (f start (join (ps.map (Piece.doc .faithful depth)))).Subperm
      ((ps.flatMap Piece.nodes).map (·.id)) := by
  induction ps generalizing start with
  | nil => simp [hf.nil]
  | cons p ps ih =>
    have hrest := ih fun k ctx m hm => h k ctx m (List.mem_cons_of_mem _ hm)
    rw [List.map_cons, join_cons, hf.append, List.flatMap_cons, List.map_append]
    refine List.Subperm.append ?_ (hrest _)
    cases p with
    | text s => simp [Piece.doc, hf.text]
    | line k => simp [Piece.doc, hf.text]
    | sub k ctx m => exact h k ctx m List.mem_cons_self start _

theorem Collects.subperm {f : Nat → Doc → List NodeId} (hf : Collects f) (n : AnyNode)
    (start depth : Nat) (ctx : Ctx) :
    (f start (n.node.doc .faithful depth ctx)).Subperm n.ids := by
  induction n using AnyNode.print_induct generalizing start depth ctx with
  | step n ih =>
    have hbelow : (f start (join ((n.node.written ctx).map (Piece.doc .faithful depth)))).Subperm
        (n.children.flatMap AnyNode.ids) := by
      have hparts := hf.subperm_join (n.node.written ctx) depth
        (fun k ctx' m hm start depth => ih _ ctx k ctx' m hm start depth ctx') start
      have hle := (n.node.flatMap_pieces (fun _ _ => true) ctx).map AnyNode.id
      rw [List.map_flatMap (l := AnyNode.children _)] at hle
      exact hparts.trans hle.subperm
    rw [Node.doc_faithful, AnyNode.ids_eq]
    rcases hf.mark start n.node ((n.node.written ctx).map (Piece.doc .faithful depth)) with h | h
    · rw [h]
      exact hbelow.trans List.Subperm.cons_self
    · rw [h]
      exact ((List.perm_append_singleton _ _).subperm).trans ((List.subperm_cons _).mpr hbelow)

theorem Collects.nodup {f : Nat → Doc → List NodeId} (hf : Collects f) {n : AnyNode}
    (hn : n.DistinctIds) (start depth : Nat) (ctx : Ctx) :
    (f start (n.node.doc .faithful depth ctx)).Nodup := by
  rw [List.nodup_iff_count_le_one]
  intro id
  exact Nat.le_trans ((hf.subperm n start depth ctx).count_le id) (List.nodup_iff_count_le_one.mp hn id)

theorem collects_spans : Collects fun start d => (d.spans start).map (·.1) where
  nil _ := rfl
  text _ _ := rfl
  append start a b := by simp [spans]
  mark start n parts := by
    unfold Node.mark
    split
    · right
      simp [spans, Node.id]
    · split
      · right
        simp [spans]
      · left
        rfl

theorem collects_parenPairs : Collects fun start d => (d.parenPairs start).map (·.1) where
  nil _ := rfl
  text _ _ := rfl
  append start a b := by simp [parenPairs]
  mark start n parts := by
    unfold Node.mark
    split
    · right
      simp [parenPairs, Node.id]
    · left
      split <;> rfl

end Doc

/-! ## Looking positions up -/

namespace Table

variable {α : Type}

theorem mem_of_get?_ofList {entries : List (NodeId × α)} {id : NodeId} {a : α}
    (h : (ofList entries).get? id = some a) : (id, a) ∈ entries := by
  obtain ⟨l₁, l₂, heq, -⟩ := List.lookup_eq_some_iff.mp h
  rw [← List.mem_reverse]
  simp only [ofList] at heq
  rw [heq]
  simp

theorem get?_ofList_of_mem {entries : List (NodeId × α)} (hn : (entries.map (·.1)).Nodup)
    {p : NodeId × α} (hp : p ∈ entries) : (ofList entries).get? p.1 = some p.2 := by
  cases h : (ofList entries).get? p.1 with
  | some a =>
    have heq := List.inj_on_of_nodup_map hn (mem_of_get?_ofList h) hp rfl
    rw [← heq]
  | none =>
    have := List.lookup_eq_none_iff.mp h p (List.mem_reverse.mpr hp)
    simp at this

end Table

namespace Doc

/-- The unit knows every mark of a document that is printed at `start`. -/
structure PlacedAt (unit : SourceUnit) (start : Nat) (d : Doc) : Prop where
  span : ∀ p ∈ d.spans start, unit.span? p.1 = some p.2
  parens : ∀ p ∈ d.parenPairs start, unit.parens? p.1 = some p.2

variable {unit : SourceUnit} {start : Nat} {a b : Doc}

theorem PlacedAt.left (h : PlacedAt unit start (.append a b)) : PlacedAt unit start a :=
  ⟨fun p hp => h.span p (List.mem_append_left _ hp),
    fun p hp => h.parens p (List.mem_append_left _ hp)⟩

theorem PlacedAt.right (h : PlacedAt unit start (.append a b)) :
    PlacedAt unit (start + a.width) b :=
  ⟨fun p hp => h.span p (List.mem_append_right _ hp),
    fun p hp => h.parens p (List.mem_append_right _ hp)⟩

theorem PlacedAt.of_mark {c : Category} {n : Node c} {parts : List Doc}
    (h : PlacedAt unit start (n.mark parts)) : PlacedAt unit start (join parts) := by
  unfold Node.mark at h
  split at h
  · refine ⟨fun p hp => h.span p ?_, fun p hp => h.parens p ?_⟩
    · simp only [spans, append_eq, join_cons, List.mem_append] at hp ⊢
      exact Or.inl hp
    · simp only [parenPairs, append_eq, join_cons, List.mem_append] at hp ⊢
      exact hp.imp_right Or.inl
  · split at h
    · exact ⟨fun p hp => h.span p (List.mem_append_left _ hp), h.parens⟩
    · exact h

end Doc

/-- The text and the positions are those of the layout of the file. -/
structure SourceUnit.Printed (unit : SourceUnit) : Prop where
  source : unit.source = unit.file.layout.text
  positions : unit.positions = unit.file.layout.positions

namespace SourceUnit

variable {unit : SourceUnit}

theorem printed_ofFile (path : Path) (file : File) (info : TypeInfo) :
    (ofFile path file info).Printed := ⟨rfl, rfl⟩

theorem Printed.span?_eq (h : unit.Printed) (id : NodeId) :
    unit.span? id = (Table.ofList (unit.file.layoutDoc.spans 0)).get? id := by
  rw [span?, h.positions]
  rfl

theorem Printed.parens?_eq (h : unit.Printed) (id : NodeId) :
    unit.parens? id = (Table.ofList (unit.file.layoutDoc.parenPairs 0)).get? id := by
  rw [parens?, h.positions]
  rfl

theorem Printed.mem_spans (h : unit.Printed) {id : NodeId} {s : Span}
    (hs : unit.span? id = some s) : (id, s) ∈ unit.file.layoutDoc.spans 0 := by
  rw [h.span?_eq] at hs
  exact Table.mem_of_get?_ofList hs

theorem Printed.mem_parenPairs (h : unit.Printed) {id : NodeId} {p : ParenPair}
    (hp : unit.parens? id = some p) : (id, p) ∈ unit.file.layoutDoc.parenPairs 0 := by
  rw [h.parens?_eq] at hp
  exact Table.mem_of_get?_ofList hp

theorem Printed.placedAt (h : unit.Printed) (hids : AnyNode.DistinctIds ⟨unit.file⟩) :
    unit.file.layoutDoc.PlacedAt unit 0 where
  span p hp := by
    rw [h.span?_eq]
    exact Table.get?_ofList_of_mem (Doc.collects_spans.nodup hids 0 0 .plain) hp
  parens p hp := by
    rw [h.parens?_eq]
    exact Table.get?_ofList_of_mem (Doc.collects_parenPairs.nodup hids 0 0 .plain) hp

end SourceUnit

/-! ## Opening parentheses -/

namespace Doc

/-- The opening parentheses lie inside the text, each at a place of its own. -/
structure ParensApart (start : Nat) (d : Doc) : Prop where
  inside : ∀ p ∈ d.parenPairs start, start ≤ p.2.lparen ∧ p.2.lparen < start + d.width
  nodup : ((d.parenPairs start).map (·.2.lparen)).Nodup

theorem parensApart_text (start : Nat) (s : String) : ParensApart start (.text s) :=
  ⟨by simp [parenPairs], by simp [parenPairs]⟩

theorem ParensApart.append {start : Nat} {a b : Doc} (ha : ParensApart start a)
    (hb : ParensApart (start + a.width) b) : ParensApart start (.append a b) where
  inside := by
    intro p hp
    rcases List.mem_append.mp hp with hp | hp
    · have := ha.inside p hp
      simp only [width]
      omega
    · have := hb.inside p hp
      simp only [width]
      omega
  nodup := by
    simp only [parenPairs, List.map_append]
    refine List.nodup_append.mpr ⟨ha.nodup, hb.nodup, ?_⟩
    rintro _ hx _ hy rfl
    obtain ⟨p, hp, rfl⟩ := List.mem_map.mp hx
    obtain ⟨q, hq, hpq⟩ := List.mem_map.mp hy
    have := ha.inside p hp
    have := hb.inside q hq
    omega

theorem ParensApart.parens {start : Nat} {d : Doc} (h : ParensApart (start + 1) d) (id : NodeId) :
    ParensApart start (.parens id (.append (.text "(") d)) := by
  have hw : (text "(").width = 1 := rfl
  constructor
  · intro p hp
    simp only [parenPairs, hw, List.nil_append, List.mem_append, List.mem_singleton] at hp
    have hwidth : (Doc.parens id (.append (.text "(") d)).width = 1 + d.width := rfl
    rw [hwidth]
    rcases hp with hp | rfl
    · have := h.inside p hp
      omega
    · simp only
      omega
  · simp only [parenPairs, hw, List.nil_append, List.map_append, List.map_cons, List.map_nil]
    refine List.nodup_append.mpr ⟨h.nodup, List.nodup_singleton _, ?_⟩
    rintro _ hx _ hy rfl
    obtain ⟨p, hp, rfl⟩ := List.mem_map.mp hx
    have := h.inside p hp
    simp only [List.mem_singleton] at hy
    omega

theorem parensApart_join (ps : List Piece) (depth : Nat)
    (h : ∀ k ctx m, .sub k ctx m ∈ ps → ∀ start depth,
      (m.node.doc .faithful depth ctx).ParensApart start) (start : Nat) :
    (join (ps.map (Piece.doc .faithful depth))).ParensApart start := by
  induction ps generalizing start with
  | nil => exact ⟨by simp [parenPairs], by simp [parenPairs]⟩
  | cons p ps ih =>
    have hrest := ih fun k ctx m hm => h k ctx m (List.mem_cons_of_mem _ hm)
    refine ParensApart.append ?_ (hrest _)
    cases p with
    | text s => exact parensApart_text start s
    | line k => exact parensApart_text start _
    | sub k ctx m => exact h k ctx m List.mem_cons_self start _

end Doc

theorem Node.parensApart_doc {c : Category} (n : Node c) (start depth : Nat) (ctx : Ctx) :
    (n.doc .faithful depth ctx).ParensApart start := by
  suffices h : ∀ n : AnyNode, ∀ start depth ctx,
      (n.node.doc .faithful depth ctx).ParensApart start from h ⟨n⟩ start depth ctx
  intro n
  induction n using AnyNode.print_induct with
  | step n ih =>
    intro start depth ctx
    have hsub : ∀ k ctx' m, .sub k ctx' m ∈ n.node.written ctx → ∀ start depth,
        (m.node.doc .faithful depth ctx').ParensApart start :=
      fun k ctx' m hm start depth => ih _ ctx k ctx' m hm start depth ctx'
    rw [doc_faithful]
    cases hcall : n.node.isCall with
    | true =>
      obtain ⟨n⟩ := n
      cases n <;> simp [isCall] at hcall
      case call id callee args spread =>
        -- The parentheses of the call follow its callee and are around its arguments.
        have hargs := Doc.parensApart_join
          (Piece.exprs .plain args ++ [.text (if spread then "...)" else ")")]) depth
          fun k ctx' m hm => hsub k ctx' m (List.mem_cons_of_mem _ (List.mem_cons_of_mem _ hm))
        have hcallee := hsub 0 _ ⟨callee⟩ List.mem_cons_self start depth
        have happ := hcallee.append ((hargs _).parens id)
        exact ⟨happ.inside, happ.nodup⟩
    | false =>
      have hparts := Doc.parensApart_join _ depth hsub start
      rw [mark_of_not_call hcall]
      split
      · exact ⟨hparts.inside, hparts.nodup⟩
      · exact hparts

theorem SourceUnit.Printed.eq_of_lparen_eq {unit : SourceUnit} (h : unit.Printed) {i j : NodeId}
    {p q : ParenPair} (hp : unit.parens? i = some p) (hq : unit.parens? j = some q)
    (hpq : p.lparen = q.lparen) : i = j := by
  have hnodup := (unit.file.parensApart_doc 0 0 .plain).nodup
  have heq := List.inj_on_of_nodup_map hnodup (h.mem_parenPairs hp) (h.mem_parenPairs hq) hpq
  exact congrArg Prod.fst heq

end ConvSweep
