import Mathlib.Data.List.Pairwise
import ConvSweep.Proofs.Positions

/-! # The positions of a layout follow the tree -/

namespace ConvSweep

/-! ## Positions that follow the tree -/

/-- No byte lies in both. -/
def Span.Disjoint (s t : Span) : Prop := min s.stop t.stop ≤ max s.start t.start

def Span.Within (s t : Span) : Prop := t.start ≤ s.start ∧ s.stop ≤ t.stop

/-- The places of a call of one argument: the callee, the parenthesis, the argument and the other
parenthesis, in this order and inside a text of `size` bytes. -/
def ParenPair.Encloses (size : Nat) (call callee arg : Span) (p : ParenPair) : Prop :=
  call.start = callee.start ∧ callee.start < callee.stop ∧ callee.stop ≤ p.lparen ∧
    p.lparen < arg.start ∧ arg.start ≤ arg.stop ∧ arg.stop ≤ p.rparen ∧
    call.stop = p.rparen + 1 ∧ call.stop ≤ size

namespace SourceUnit

def size (unit : SourceUnit) : Nat := unit.source.utf8ByteSize

/-- A call of one argument that has all its positions has them in order. -/
def CallInOrder (unit : SourceUnit) : AnyNode → Prop
  | ⟨.call id callee [arg] _⟩ =>
    ∀ s ∈ unit.span? id, ∀ p ∈ unit.parens? id, ∀ a ∈ unit.span? arg.id,
      ∃ f ∈ unit.span? callee.id, p.Encloses unit.size s f a
  | _ => True

/-- The recorded spans below one node are disjoint from those below the other. -/
def Separates (unit : SourceUnit) (a b : AnyNode) : Prop :=
  ∀ x ∈ a.nodes, ∀ y ∈ b.nodes, ∀ s ∈ unit.span? x.id, ∀ t ∈ unit.span? y.id, s.Disjoint t

instance (unit : SourceUnit) : Std.Symm unit.Separates where
  symm a b h x hx y hy s hs t ht := by
    have := h y hy x hx t ht s hs
    unfold Span.Disjoint at *
    omega

/-- The positions follow the tree: a node lies within its ancestors, and what is below different
children of a node is disjoint. -/
structure Consistent (unit : SourceUnit) : Prop where
  within : ∀ n ∈ AnyNode.nodes ⟨unit.file⟩, ∀ m ∈ n.nodes,
    ∀ s ∈ unit.span? m.id, ∀ t ∈ unit.span? n.id, s.Within t
  disjoint : ∀ n ∈ AnyNode.nodes ⟨unit.file⟩, n.children.Pairwise unit.Separates
  calls : ∀ n ∈ AnyNode.nodes ⟨unit.file⟩, unit.CallInOrder n

end SourceUnit

open AnyNode

/-! ## Records of spans -/

namespace Doc

theorem spans_inside (d : Doc) (start : Nat) :
    ∀ p ∈ d.spans start, start ≤ p.2.start ∧ p.2.start ≤ p.2.stop ∧ p.2.stop ≤ start + d.width := by
  induction d generalizing start with
  | nil => simp [spans]
  | text s => simp [spans]
  | append a b iha ihb =>
    intro p hp
    simp only [width]
    rcases List.mem_append.mp hp with hp | hp
    · have := iha start p hp
      omega
    · have := ihb _ p hp
      omega
  | span id d ih =>
    intro p hp
    simp only [width]
    rcases List.mem_append.mp hp with hp | hp
    · exact ih start p hp
    · rw [List.mem_singleton] at hp
      subst hp
      simp only
      omega
  | parens id d ih => exact ih start

end Doc

/-- The pieces one after the other. -/
abbrev Piece.row (depth : Nat) (ps : List Piece) : Doc := .join (ps.map (Piece.doc .faithful depth))

theorem Node.mem_spans_doc {c : Category} {n : Node c} {depth start : Nat} {ctx : Ctx}
    {p : NodeId × Span} :
    p ∈ (n.doc .faithful depth ctx).spans start ↔
      p ∈ (Piece.row depth (n.written ctx)).spans start ∨
        (c.hasSpan = true ∧ p = (n.id, ⟨start, start + (n.doc .faithful depth ctx).width⟩)) := by
  rw [doc_faithful]
  cases hcall : n.isCall with
  | true =>
    cases n <;> simp [isCall] at hcall
    case call id callee args spread =>
      change p ∈ (Doc.span id _).spans start ↔ _
      rw [Doc.spans, List.mem_append, List.mem_singleton]
      exact or_congr Iff.rfl ⟨fun h => ⟨rfl, h⟩, fun h => h.2⟩
  | false =>
    rw [mark_of_not_call hcall]
    split
    · rename_i hc
      rw [Doc.spans, List.mem_append, List.mem_singleton]
      exact or_congr Iff.rfl ⟨fun h => ⟨hc, h⟩, fun h => h.2⟩
    · rename_i hc
      exact ⟨Or.inl, fun h => h.resolve_right fun h => hc h.1⟩

theorem AnyNode.id_mem_of_span {n : AnyNode} {depth start : Nat} {ctx : Ctx} {p : NodeId × Span}
    (hp : p ∈ (n.node.doc .faithful depth ctx).spans start) : p.1 ∈ n.ids :=
  (Doc.collects_spans.subperm n start depth ctx).subset (List.mem_map_of_mem hp)

namespace Piece

variable {depth start : Nat} {ps : List Piece}

theorem exists_of_mem_spans_row {p : NodeId × Span} (hp : p ∈ (row depth ps).spans start) :
    ∃ k ctx m o, .sub k ctx m ∈ ps ∧ p ∈ (m.node.doc .faithful (depth + k) ctx).spans o := by
  induction ps generalizing start with
  | nil => exact absurd hp List.not_mem_nil
  | cons q ps ih =>
    rcases List.mem_append.mp hp with hp | hp
    · cases q with
      | text s => simp [doc, Doc.spans] at hp
      | line k => simp [doc, Doc.spans] at hp
      | sub k ctx m => exact ⟨k, ctx, m, start, List.mem_cons_self, hp⟩
    · obtain ⟨k, ctx, m, o, hm, hp⟩ := ih hp
      exact ⟨k, ctx, m, o, List.mem_cons_of_mem _ hm, hp⟩

theorem exists_placedAt_of_mem_row {unit : SourceUnit} (h : (row depth ps).PlacedAt unit start)
    {p : NodeId × Span} (hp : p ∈ (row depth ps).spans start) :
    ∃ k ctx m o, .sub k ctx m ∈ ps ∧ p ∈ (m.node.doc .faithful (depth + k) ctx).spans o ∧
      (m.node.doc .faithful (depth + k) ctx).PlacedAt unit o := by
  induction ps generalizing start with
  | nil => exact absurd hp List.not_mem_nil
  | cons q ps ih =>
    rcases List.mem_append.mp hp with hp | hp
    · cases q with
      | text s => simp [doc, Doc.spans] at hp
      | line k => simp [doc, Doc.spans] at hp
      | sub k ctx m => exact ⟨k, ctx, m, start, List.mem_cons_self, hp, h.left⟩
    · obtain ⟨k, ctx, m, o, hm, hp⟩ := ih h.right hp
      exact ⟨k, ctx, m, o, List.mem_cons_of_mem _ hm, hp⟩

theorem spans_row_cases (hids : ((ps.flatMap Piece.nodes).map (·.id)).Nodup) {p q : NodeId × Span}
    (hp : p ∈ (row depth ps).spans start) (hq : q ∈ (row depth ps).spans start) :
    (∃ k ctx m o, .sub k ctx m ∈ ps ∧ p ∈ (m.node.doc .faithful (depth + k) ctx).spans o ∧
      q ∈ (m.node.doc .faithful (depth + k) ctx).spans o) ∨
    (p.2.Disjoint q.2 ∧ ∃ k ctx m k' ctx' m', .sub k ctx m ∈ ps ∧ .sub k' ctx' m' ∈ ps ∧
      p.1 ∈ m.ids ∧ q.1 ∈ m'.ids ∧ ∀ id ∈ m.ids, id ∉ m'.ids) := by
  induction ps generalizing start with
  | nil => exact absurd hp List.not_mem_nil
  | cons r ps ih =>
    rw [List.flatMap_cons, List.map_append, List.nodup_append] at hids
    obtain ⟨-, htail, hapart⟩ := hids
    -- A record of the first piece and one of a later piece.
    have hmixed : ∀ {p q : NodeId × Span}, p ∈ (r.doc .faithful depth).spans start →
        q ∈ (row depth ps).spans (start + (r.doc .faithful depth).width) →
        p.2.stop ≤ q.2.start ∧ ∃ k ctx m k' ctx' m', r = .sub k ctx m ∧ .sub k' ctx' m' ∈ ps ∧
          p.1 ∈ m.ids ∧ q.1 ∈ m'.ids ∧ ∀ id ∈ m.ids, id ∉ m'.ids := by
      intro p q hp hq
      have hp' := Doc.spans_inside _ _ p hp
      have hq' := Doc.spans_inside _ _ q hq
      obtain ⟨k', ctx', m', o, hm', hqm⟩ := exists_of_mem_spans_row hq
      refine ⟨by omega, ?_⟩
      cases r with
      | text s => simp [doc, Doc.spans] at hp
      | line k => simp [doc, Doc.spans] at hp
      | sub k ctx m =>
        refine ⟨k, ctx, m, k', ctx', m', rfl, hm', id_mem_of_span hp, id_mem_of_span hqm, ?_⟩
        intro id hid hid'
        refine hapart id hid id ?_ rfl
        obtain ⟨x, hx, hxid⟩ := mem_ids_iff.mp hid'
        exact List.mem_map.mpr ⟨x, List.mem_flatMap.mpr ⟨_, hm', hx⟩, hxid⟩
    rcases List.mem_append.mp hp with hp | hp
    · rcases List.mem_append.mp hq with hq | hq
      · cases r with
        | text s => simp [doc, Doc.spans] at hp
        | line k => simp [doc, Doc.spans] at hp
        | sub k ctx m => exact Or.inl ⟨k, ctx, m, start, List.mem_cons_self, hp, hq⟩
      · obtain ⟨hle, k, ctx, m, k', ctx', m', rfl, hm', h⟩ := hmixed hp hq
        refine Or.inr ⟨?_, k, ctx, m, k', ctx', m', List.mem_cons_self, List.mem_cons_of_mem _ hm', h⟩
        unfold Span.Disjoint
        omega
    · rcases List.mem_append.mp hq with hq | hq
      · obtain ⟨hle, k, ctx, m, k', ctx', m', rfl, hm', hqm, hpm, hdis⟩ := hmixed hq hp
        refine Or.inr ⟨?_, k', ctx', m', k, ctx, m, List.mem_cons_of_mem _ hm', List.mem_cons_self,
          hpm, hqm, fun id hid hid' => hdis id hid' hid⟩
        unfold Span.Disjoint
        omega
      · rcases ih htail hp hq with ⟨k, ctx, m, o, hm, h⟩ | ⟨hdis, k, ctx, m, k', ctx', m', hm, hm', h⟩
        · exact Or.inl ⟨k, ctx, m, o, List.mem_cons_of_mem _ hm, h⟩
        · exact Or.inr ⟨hdis, k, ctx, m, k', ctx', m', List.mem_cons_of_mem _ hm,
            List.mem_cons_of_mem _ hm', h⟩

end Piece

/-! ## Nesting -/

section

variable {root : AnyNode} {depth start : Nat} {ctx : Ctx}

theorem AnyNode.mem_spans_row_of_ne (hroot : root.DistinctIds) {x : AnyNode} (hx : x ∈ root.nodes)
    (hne : x ≠ root) {s : Span} (hs : (x.id, s) ∈ (root.node.doc .faithful depth ctx).spans start) :
    (x.id, s) ∈ (Piece.row depth (root.node.written ctx)).spans start := by
  rcases Node.mem_spans_doc.mp hs with h | ⟨-, h⟩
  · exact h
  · exact (hne (hroot.eq_of_id hx root.self_mem_nodes (congrArg Prod.fst h))).elim

theorem AnyNode.span_root (hroot : root.DistinctIds) {s : Span}
    (hs : (root.id, s) ∈ (root.node.doc .faithful depth ctx).spans start) :
    s = ⟨start, start + (root.node.doc .faithful depth ctx).width⟩ := by
  rcases Node.mem_spans_doc.mp hs with h | ⟨-, h⟩
  · obtain ⟨k, ctx', m, o, hm, hsm⟩ := Piece.exists_of_mem_spans_row h
    have hmem : m ∈ root.nodes := Node.mem_nodes_of_piece hm m.self_mem_nodes
    exact (Node.ne_of_piece hm (hroot.mem_of_id hmem root.self_mem_nodes (id_mem_of_span hsm))).elim
  · exact congrArg Prod.snd h

theorem AnyNode.mem_spans_inside (hroot : root.DistinctIds) {n x : AnyNode} (hn : n ∈ root.nodes)
    (hx : x ∈ n.nodes) {s t : Span}
    (hs : (n.id, s) ∈ (root.node.doc .faithful depth ctx).spans start)
    (ht : (x.id, t) ∈ (root.node.doc .faithful depth ctx).spans start) :
    ∃ depth' ctx', s.stop = s.start + (n.node.doc .faithful depth' ctx').width ∧
      (x.id, t) ∈ (n.node.doc .faithful depth' ctx').spans s.start := by
  induction root using AnyNode.print_induct generalizing depth start ctx with
  | step root ih =>
    by_cases hnr : n = root
    · subst hnr
      rw [span_root hroot hs]
      exact ⟨depth, ctx, rfl, ht⟩
    have hxr : x ≠ root := by
      rintro rfl
      exact hnr (nodes_antisymm hn hx)
    rcases Piece.spans_row_cases (nodup_pieces hroot ctx) (mem_spans_row_of_ne hroot hn hnr hs)
        (mem_spans_row_of_ne hroot (mem_nodes_trans hn hx) hxr ht) with
      ⟨k, ctx', m, o, hm, hsm, htm⟩ | ⟨-, k, ctx', m, k', ctx'', m', hm, -, hnm, hxm, hapart⟩
    · have hmem : m ∈ root.nodes := Node.mem_nodes_of_piece hm m.self_mem_nodes
      exact ih _ ctx k ctx' m hm (hroot.of_mem hmem) (hroot.mem_of_id hmem hn (id_mem_of_span hsm))
        hsm htm
    · -- The piece that prints a node prints everything below it.
      have hmem : m ∈ root.nodes := Node.mem_nodes_of_piece hm m.self_mem_nodes
      have hxm' := mem_nodes_trans (hroot.mem_of_id hmem hn hnm) hx
      exact (hapart x.id (id_mem_ids hxm') hxm).elim

theorem AnyNode.span_within (hroot : root.DistinctIds) {n x : AnyNode} (hn : n ∈ root.nodes)
    (hx : x ∈ n.nodes) {s t : Span}
    (hs : (n.id, s) ∈ (root.node.doc .faithful depth ctx).spans start)
    (ht : (x.id, t) ∈ (root.node.doc .faithful depth ctx).spans start) : t.Within s := by
  obtain ⟨depth', ctx', hstop, hmem⟩ := mem_spans_inside hroot hn hx hs ht
  have hin := Doc.spans_inside _ _ _ hmem
  exact ⟨hin.1, hstop ▸ hin.2.2⟩

theorem AnyNode.span_disjoint (hroot : root.DistinctIds) {p a b x y : AnyNode} (hp : p ∈ root.nodes)
    (ha : a ∈ p.children) (hb : b ∈ p.children) (hab : a ≠ b) (hx : x ∈ a.nodes) (hy : y ∈ b.nodes)
    {s t : Span} (hs : (x.id, s) ∈ (root.node.doc .faithful depth ctx).spans start)
    (ht : (y.id, t) ∈ (root.node.doc .faithful depth ctx).spans start) : s.Disjoint t := by
  induction root using AnyNode.print_induct generalizing depth start ctx with
  | step root ih =>
    have hbelow : ∀ {c z : AnyNode}, c ∈ p.children → z ∈ c.nodes → z ≠ root := by
      rintro c z hc hz rfl
      have := nodes_antisymm hp (mem_nodes_of_child hc hz)
      subst this
      exact not_mem_nodes_child hc hz
    have hxp := mem_nodes_of_child ha hx
    have hyp := mem_nodes_of_child hb hy
    rcases Piece.spans_row_cases (nodup_pieces hroot ctx)
        (mem_spans_row_of_ne hroot (mem_nodes_trans hp hxp) (hbelow ha hx) hs)
        (mem_spans_row_of_ne hroot (mem_nodes_trans hp hyp) (hbelow hb hy) ht) with
      ⟨k, ctx', m, o, hm, hsm, htm⟩ | ⟨hdis, -⟩
    · have hmem : m ∈ root.nodes := Node.mem_nodes_of_piece hm m.self_mem_nodes
      have hxm := hroot.mem_of_id hmem (mem_nodes_trans hp hxp) (id_mem_of_span hsm)
      have hym := hroot.mem_of_id hmem (mem_nodes_trans hp hyp) (id_mem_of_span htm)
      have hrec : p ∈ m.nodes → s.Disjoint t := fun hpm =>
        ih _ ctx k ctx' m hm (hroot.of_mem hmem) hpm hsm htm
      rcases nested_or_apart hmem hp with hmp | hpm | ⟨q, hq, c, hc, c', hc', hne, hmc, hpc⟩
      · rcases mem_nodes_iff.mp hmp with rfl | ⟨c, hc, hmc⟩
        · exact hrec m.self_mem_nodes
        · -- Both nodes would lie below the same child.
          have hca := (hroot.of_mem hp).children_eq hc ha (mem_nodes_trans hmc hxm) hx
          have hcb := (hroot.of_mem hp).children_eq hc hb (mem_nodes_trans hmc hym) hy
          exact (hab (hca.symm.trans hcb)).elim
      · exact hrec hpm
      · exact (hne ((hroot.of_mem hq).children_eq hc hc' (mem_nodes_trans hmc hxm)
          (mem_nodes_trans hpc hxp))).elim
    · exact hdis

end

/-! ## Calls -/

/-- Every name and every literal has a character. -/
def AnyNode.HasWords (n : AnyNode) : Prop := ∀ x ∈ n.nodes, ∀ s ∈ x.node.word?, s ≠ ""

theorem AnyNode.hasWords_iff {n : AnyNode} :
    n.HasWords ↔ (n.nodes.all fun x => x.node.word?.all (· ≠ "")) = true := by
  simp [HasWords, List.all_eq_true, Option.all_eq_true]

theorem Piece.width_row_pos {depth : Nat} {ps : List Piece} {s : String} (hs : .text s ∈ ps)
    (hne : s ≠ "") : 0 < (row depth ps).width := by
  induction ps with
  | nil => simp at hs
  | cons p ps ih =>
    change 0 < (p.doc .faithful depth).width + (row depth ps).width
    rcases List.mem_cons.mp hs with rfl | hs
    · have : s.utf8ByteSize ≠ 0 := by rwa [ne_eq, String.utf8ByteSize_eq_zero_iff]
      change 0 < s.utf8ByteSize + _
      omega
    · have := ih hs
      omega

theorem Node.width_doc_pos {n : Node .expr} (hn : ∀ s ∈ n.word?, s ≠ "") (depth : Nat) (ctx : Ctx) :
    0 < (n.doc .faithful depth ctx).width := by
  have hwidth : (n.doc .faithful depth ctx).width = (Piece.row depth (n.written ctx)).width := by
    rw [doc_faithful]
    cases n <;> rfl
  rw [hwidth]
  cases hp : n.isParen with
  | true =>
    cases n <;> simp [isParen] at hp
    exact Piece.width_row_pos (s := "(") List.mem_cons_self (by decide)
  | false =>
    have hopen : n.Opens (n.written ctx) := n.opens_pieces hp _ ctx
    generalize n.written ctx = ps at hopen
    cases hopen with
    | word s h => exact Piece.width_row_pos List.mem_cons_self (hn s h)
    | text s rest h => exact Piece.width_row_pos List.mem_cons_self h.ne_empty
    | operand ctx x z rest h =>
      exact Piece.width_row_pos (List.mem_cons_of_mem _ List.mem_cons_self) h.ne_empty

/-- What closes the arguments of a call. -/
def closing (spread : Bool) : String := if spread then "...)" else ")"

theorem Node.doc_call (id : NodeId) (callee arg : Expr) (spread : Bool) (depth : Nat) (ctx : Ctx) :
    (Node.call id callee [arg] spread).doc .faithful depth ctx =
      .span id (.append (callee.doc .faithful depth (ctx.prec primaryPrec))
        (.parens id (.append (.text "(") (.append (arg.doc .faithful depth .plain)
          (.append (.text (closing spread)) .nil))))) := by
  rw [doc_faithful]
  rfl

theorem AnyNode.exists_placedAt {unit : SourceUnit} {root : AnyNode} {depth start : Nat} {ctx : Ctx}
    (h : (root.node.doc .faithful depth ctx).PlacedAt unit start) {p : NodeId × Span}
    (hp : p ∈ (root.node.doc .faithful depth ctx).spans start) :
    ∃ m ∈ root.nodes, m.id = p.1 ∧
      ∃ depth' ctx', (m.node.doc .faithful depth' ctx').PlacedAt unit p.2.start := by
  induction root using AnyNode.print_induct generalizing depth start ctx with
  | step root ih =>
    rcases Node.mem_spans_doc.mp hp with hrow | ⟨-, rfl⟩
    · have hplaced : (Piece.row depth (root.node.written ctx)).PlacedAt unit start := by
        rw [Node.doc_faithful] at h
        exact h.of_mark
      obtain ⟨k, ctx', m, o, hm, hpm, hplaced⟩ := Piece.exists_placedAt_of_mem_row hplaced hrow
      obtain ⟨x, hx, hid, hx'⟩ := ih _ ctx k ctx' m hm hplaced hpm
      exact ⟨x, Node.mem_nodes_of_piece hm hx, hid, hx'⟩
    · exact ⟨root, root.self_mem_nodes, rfl, depth, ctx, h⟩

theorem Doc.PlacedAt.call {unit : SourceUnit} {id : NodeId} {callee arg : Expr} {spread : Bool}
    {depth start : Nat} {ctx : Ctx}
    (h : ((Node.call id callee [arg] spread).doc .faithful depth ctx).PlacedAt unit start) :
    let f := callee.doc .faithful depth (ctx.prec primaryPrec)
    let a := arg.doc .faithful depth .plain
    unit.span? id = some ⟨start, start + (f.width + (1 + (a.width + (closing spread).utf8ByteSize)))⟩ ∧
      unit.parens? id = some ⟨start + f.width,
        start + f.width + (1 + (a.width + (closing spread).utf8ByteSize)) - 1⟩ ∧
      f.PlacedAt unit start ∧ unit.span? callee.id = some ⟨start, start + f.width⟩ ∧
      a.PlacedAt unit (start + f.width + 1) ∧
      unit.span? arg.id = some ⟨start + f.width + 1, start + f.width + 1 + a.width⟩ := by
  intro f a
  have hone : (Doc.text "(").width = 1 := rfl
  have hown : ∀ {e : Expr} {depth start : Nat} {ctx : Ctx},
      (e.doc .faithful depth ctx).PlacedAt unit start →
      unit.span? e.id = some ⟨start, start + (e.doc .faithful depth ctx).width⟩ :=
    fun h => h.span _ (Node.mem_spans_doc.mpr (Or.inr ⟨rfl, rfl⟩))
  have hspan := hown h
  rw [Node.doc_call] at h hspan
  have hin : (Doc.append f (.parens id _)).PlacedAt unit start :=
    ⟨fun p hp => h.span p (List.mem_append_left _ hp), h.parens⟩
  have hparens := h.parens (id, _)
    (List.mem_append_right _ (List.mem_append_right _ (List.mem_singleton.mpr rfl)))
  have hrest : (Doc.append (.text "(") (.append a _)).PlacedAt unit (start + f.width) :=
    ⟨hin.right.span, fun p hp => hin.right.parens p (List.mem_append_left _ hp)⟩
  have harg : a.PlacedAt unit (start + f.width + 1) := hrest.right.left
  exact ⟨hspan, hparens, hin.left, hown hin.left, harg, hown harg⟩

theorem SourceUnit.Printed.callInOrder {unit : SourceUnit} (h : unit.Printed)
    (hids : DistinctIds ⟨unit.file⟩) (hwords : HasWords ⟨unit.file⟩) {n : AnyNode}
    (hn : n ∈ AnyNode.nodes ⟨unit.file⟩) : unit.CallInOrder n := by
  unfold CallInOrder
  split
  · rename_i id callee arg spread
    intro s hs p hp a ha
    have hrec : (id, s) ∈ ((⟨unit.file⟩ : AnyNode).node.doc .faithful 0 .plain).spans 0 :=
      h.mem_spans hs
    have hsize : s.stop ≤ unit.size := by
      have hstop := (Doc.spans_inside _ _ _ hrec).2.2
      rw [Nat.zero_add, ← Doc.utf8ByteSize_toString] at hstop
      rw [size, h.source]
      exact hstop
    obtain ⟨m, hm, hid, depth, ctx, hplaced⟩ := exists_placedAt (h.placedAt hids) hrec
    obtain rfl := hids.eq_of_id hm hn hid
    obtain ⟨hcall, hparens, -, hcallee, -, harg⟩ := hplaced.call
    -- A callee has a word, so the opening parenthesis is not the start of the call.
    have hmem : (⟨callee⟩ : AnyNode) ∈ AnyNode.nodes ⟨unit.file⟩ := by
      refine mem_nodes_trans hn (child_mem_nodes ?_)
      simp [AnyNode.children, Node.children, Slot.one]
    have hpos : 0 < (callee.doc .faithful depth (ctx.prec primaryPrec)).width :=
      Node.width_doc_pos (hwords _ hmem) depth _
    have hclose : 0 < (closing spread).utf8ByteSize := by cases spread <;> decide
    obtain rfl := Option.some.inj (hp.symm.trans hparens)
    obtain rfl := Option.some.inj (ha.symm.trans harg)
    have hstop := congrArg Span.stop (Option.some.inj (hs.symm.trans hcall))
    refine ⟨_, hcallee, ?_⟩
    unfold ParenPair.Encloses
    refine ⟨rfl, ?_⟩
    simp only at hstop ⊢
    omega
  · trivial

/-- Where a file is printed as it stands, its positions follow the tree. -/
theorem SourceUnit.Printed.consistent {unit : SourceUnit} (h : unit.Printed)
    (hids : DistinctIds ⟨unit.file⟩) (hwords : HasWords ⟨unit.file⟩) : unit.Consistent where
  within n hn m hm s hs t ht := span_within hids hn hm (h.mem_spans ht) (h.mem_spans hs)
  disjoint n hn := by
    refine (hids.of_mem hn).nodup_children.pairwise_of_forall_ne ?_
    intro a ha b hb hab x hx y hy s hs t ht
    exact span_disjoint hids hn ha hb hab hx hy (h.mem_spans hs) (h.mem_spans ht)
  calls n hn := h.callInOrder hids hwords hn

end ConvSweep
