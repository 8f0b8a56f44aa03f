import ConvSweep.Proofs.Children
import ConvSweep.Proofs.Trial

/-! # How a trial is decided

The two renderings of a trial agree outside the path from the surroundings to the conversion. On that
path they part where a written pair of parentheses is shown by one of them only, or at the conversion
itself, so the faces and contexts along the path decide whether parentheses are required.
-/

namespace ConvSweep

open AnyNode

/-! ## Faces -/

/-- The face `f` for the expression with the id, and no other. -/
def Face.standing (f : Face) (id : NodeId) : NodeId → Option Face :=
  fun i => if id = i then some f else none

theorem Node.face_congr {shown shown' : NodeId → Option Face} {c : Category} (n : Node c)
    (h : ∀ x ∈ AnyNode.nodes ⟨n⟩, shown x.id = shown' x.id) : n.face shown = n.face shown' := by
  generalize hm : (⟨n⟩ : AnyNode) = m
  induction m using AnyNode.induct generalizing c n with
  | step m ih =>
    subst hm
    have hchild : ∀ x : Expr, ⟨x⟩ ∈ AnyNode.children ⟨n⟩ → x.face shown = x.face shown' :=
      fun x hx => ih ⟨x⟩ hx x (fun y hy => h y (mem_nodes_of_child hx hy)) rfl
    have hid : shown n.id = shown' n.id := h ⟨n⟩ (self_mem_nodes _)
    unfold Node.face
    rw [hid]
    cases n
    case binary | unary | star | call | selector | index | slice | typeAssert =>
      simp [AnyNode.children, Node.children, or_imp, forall_and] at hchild
      simp [hchild]
    case funcType id params results => cases results <;> rfl
    all_goals rfl

theorem Node.face_standing {c : Category} {n : Node c} {t : NodeId} (h : t ∉ AnyNode.ids ⟨n⟩)
    (f : Face) : n.face (f.standing t) = n.face fun _ => none := by
  refine n.face_congr fun x hx => if_neg ?_
  rintro rfl
  exact h (id_mem_ids hx)

theorem Node.face_of_id {c : Category} {n : Node c} {t : NodeId} (h : n.id = t) (f : Face) :
    n.face (f.standing t) = f := by
  unfold Node.face
  simp [Face.standing, h]

theorem Node.face_paren {shown : NodeId → Option Face} {id : NodeId} (h : shown id = none)
    (x : Expr) : (Node.paren id x).face shown = .closed := by
  unfold Node.face
  simp [Node.id, h]

theorem Face.needsParens_closed {ctx : Ctx} (h : ctx.minPrec ≤ primaryPrec) :
    Face.closed.needsParens ctx = false := by
  simp [needsParens, closed, Nat.not_lt.mpr h]

/-! ## Prints that a trial leaves alone -/

theorem Node.pieces_of_not_paren {c : Category} {n : Node c} (h : n.isParen = false)
    (shows shows' : Ctx → Node .expr → Bool) (ctx : Ctx) :
    n.pieces shows ctx = n.pieces shows' ctx := by
  cases n <;> first | rfl | simp [isParen] at h

theorem Node.exists_slot_in {c : Category} {n : Node c} {k : Nat} {ctx ctx' : Ctx} {m : AnyNode}
    (hm : .sub k ctx' m ∈ n.written ctx) (ctx₁ : Ctx) : ∃ ctx₁', .sub k ctx₁' m ∈ n.written ctx₁ := by
  have hR : Ctx.Inherited fun _ _ => True :=
    ⟨fun _ => trivial, fun _ _ => trivial, fun _ _ _ => trivial⟩
  obtain ⟨ctx₁', hm', -⟩ := exists_slot hR trivial hm
  exact ⟨ctx₁', hm'⟩

@[simp] theorem wrap_inj {b : Bool} {l l' : List Char} : wrap b l = wrap b l' ↔ l = l' := by
  simp [wrap]

theorem Style.ReadsAlong.eq_of_wrap {S T : Style} {x : Expr} (hx : S.ReadsAlong T ⟨x⟩)
    (hparen : x.isParen = false) (hstand : S.standInFor x = none) {b b' : Bool} {depth : Nat}
    {ctx ctx' : Ctx} (heq : wrap b (x.chars S depth ctx) = wrap b' (x.chars T depth ctx')) :
    b = b' := by
  have hcut := congrArg (fun l => List.replicate 0 '(' ++ (l ++ [])) heq
  simp only [replicate_append_wrap] at hcut
  have hlevel := (hx (Or.inl rfl) hcut).2 hparen hstand
  cases b <;> cases b' <;> simp_all

namespace Trial

variable {t : NodeId} {arg : Expr}

theorem showsParens_trying (b : Bool) (ctx : Ctx) (x : Expr) :
    (Style.trying t arg b).showsParens ctx x =
      (x.face ((if b then Face.closed else arg.face fun _ => none).standing t)).needsParens ctx := rfl

theorem chars_of_not_mem (b : Bool) {n : AnyNode} (h : t ∉ n.ids) (depth : Nat) (ctx : Ctx) :
    n.node.chars (.trying t arg b) depth ctx = n.node.chars .canonical depth ctx := by
  induction n using AnyNode.print_induct generalizing depth ctx with
  | step n ih =>
    have hid : n.node.id ≠ t := by
      rintro rfl
      exact h (id_mem_ids n.self_mem_nodes)
    have hcanon : Style.canonical.standInFor n.node = none := by
      unfold Style.standInFor
      split <;> rfl
    -- A trial shows other pieces than usual only at parentheses around the conversion.
    have hpieces : n.node.pieces (Style.trying t arg b).showsParens ctx =
        n.node.pieces Style.canonical.showsParens ctx := by
      cases hp : n.node.isParen with
      | false => exact Node.pieces_of_not_paren hp _ _ _
      | true =>
        obtain ⟨n⟩ := n
        cases n <;> simp [Node.isParen] at hp
        case paren id x =>
          have hx : t ∉ AnyNode.ids ⟨x⟩ := by
            intro hmem
            obtain ⟨y, hy, rfl⟩ := mem_ids_iff.mp hmem
            refine h (id_mem_ids (mem_nodes_of_child ?_ hy))
            simp [AnyNode.children, Node.children, Slot.one]
          have hshows : (Style.trying t arg b).showsParens ctx x =
              Style.canonical.showsParens ctx x := by
            rw [showsParens_trying, Node.face_standing hx]
            rfl
          simp only [Node.pieces, hshows]
    rw [Node.chars_eq (standInFor_of_ne hid), Node.chars_eq hcanon, hpieces]
    refine List.flatMap_congr fun p hp => ?_
    cases p with
    | text s => rfl
    | line k => rfl
    | sub k ctx' m =>
      refine ih _ _ k ctx' m hp ?_ (depth + k) ctx'
      intro hmem
      obtain ⟨y, hy, rfl⟩ := mem_ids_iff.mp hmem
      exact h (id_mem_ids (Node.mem_nodes_of_piece hp hy))

theorem chars_paren (b : Bool) {id : NodeId} (hid : id ≠ t) (x : Expr) (depth : Nat) (ctx : Ctx) :
    (Node.paren id x).chars (.trying t arg b) depth ctx =
      wrap ((Style.trying t arg b).showsParens ctx x) (x.chars (.trying t arg b) depth
        (if (Style.trying t arg b).showsParens ctx x then .plain else ctx)) :=
  Node.chars_paren (standInFor_of_ne (n := .paren id x) hid) depth ctx

theorem chars_of_not_paren (b : Bool) {c : Category} {n : Node c} (hid : n.id ≠ t)
    (hparen : n.isParen = false) (depth : Nat) (ctx : Ctx) :
    n.chars (.trying t arg b) depth ctx =
      (n.written ctx).flatMap (Piece.chars (.trying t arg b) depth) := by
  rw [Node.chars_eq (standInFor_of_ne hid), Node.pieces_of_not_paren hparen]

theorem readsAlong {n : AnyNode} (htok : n.HasTokens) (harg : InStep ⟨arg⟩) :
    (Style.trying t arg false).ReadsAlong (.trying t arg true) n := by
  refine AnyNode.readsAlong htok ?_
  rintro ⟨x⟩ -
  by_cases hx : x.id = t
  · rename_i c
    by_cases hc : c = .expr
    · subst hc hx
      right
      intro j k depth ctx ctx' s s' _ heq
      have hspares : Style.canonical.Spares ⟨arg⟩ := fun _ _ => rfl
      simp only [chars_target] at heq
      refine ⟨(harg.readsAlong hspares hspares).of_wrap heq, fun _ hstand => ?_⟩
      simp [Style.standInFor, Style.substituting] at hstand
    · left
      simp [Style.standInFor, hc]
  · exact Or.inl ⟨standInFor_of_ne hx, standInFor_of_ne hx⟩

/-! ### Where the two renderings part -/

theorem chars_target_eq_iff (harg : InStep ⟨arg⟩) {x : Expr} (hx : x.id = t) {ctx : Ctx}
    (hctx : ctx.minPrec ≤ primaryPrec) (depth : Nat) :
    x.chars (.trying t arg false) depth ctx = x.chars (.trying t arg true) depth ctx ↔
      (arg.face fun _ => none).needsParens ctx = false := by
  subst hx
  simp only [chars_target, Bool.false_and, Bool.true_and]
  cases hneeds : (arg.face fun _ => none).needsParens ctx with
  | false => simp
  | true =>
    simp only [if_true, Bool.true_eq_false, iff_false]
    intro heq
    have hspares : Style.canonical.Spares ⟨arg⟩ := fun _ _ => rfl
    have hparen := Node.isParen_of_needsParens hctx hneeds
    have hreads := harg.readsAlong hspares hspares
    exact Bool.false_ne_true (hreads.eq_of_wrap hparen hspares.standInFor heq)

theorem chars_piece_eq_iff {n m : AnyNode} {ctx ctx' : Ctx} {k : Nat} (hids : n.DistinctIds)
    (hn : n.node.id ≠ t) (hparen : n.node.isParen = false)
    (hm : .sub k ctx' m ∈ n.node.written ctx) (ht : t ∈ m.ids) (depth : Nat) :
    n.node.chars (.trying t arg false) depth ctx = n.node.chars (.trying t arg true) depth ctx ↔
      m.node.chars (.trying t arg false) (depth + k) ctx' =
        m.node.chars (.trying t arg true) (depth + k) ctx' := by
  obtain ⟨pre, post, hsplit⟩ := List.append_of_mem hm
  obtain ⟨x, hx, hxt⟩ := mem_ids_iff.mp ht
  have hbeside : ∀ p ∈ pre ++ post,
      p.chars (.trying t arg false) depth = p.chars (.trying t arg true) depth := by
    intro p hp
    cases p with
    | text s => rfl
    | line k => rfl
    | sub i c y =>
      have hy : t ∉ y.ids := hxt ▸ hids.not_mem_ids_beside hsplit hx hp
      simp only [Piece.chars_sub, chars_of_not_mem _ hy]
  have hpre := List.flatMap_congr fun p hp => hbeside p (List.mem_append_left _ hp)
  have hpost := List.flatMap_congr fun p hp => hbeside p (List.mem_append_right _ hp)
  rw [chars_of_not_paren _ hn hparen, chars_of_not_paren _ hn hparen, hsplit]
  simp only [List.flatMap_append, List.flatMap_cons, Piece.chars_sub, hpre, hpost,
    List.append_cancel_left_eq, List.append_cancel_right_eq]

theorem chars_paren_ne {id : NodeId} {x : Expr} {ctx : Ctx} (htok : AnyNode.HasTokens ⟨x⟩)
    (harg : InStep ⟨arg⟩) (hid : id ≠ t) (hx : x.id ≠ t)
    (hdiffer : (Style.trying t arg false).showsParens ctx x ≠
      (Style.trying t arg true).showsParens ctx x) (hparen : x.isParen = false) (depth : Nat) :
    (Node.paren id x).chars (.trying t arg false) depth ctx ≠
      (Node.paren id x).chars (.trying t arg true) depth ctx := by
  rw [chars_paren _ hid, chars_paren _ hid]
  intro heq
  -- `x` does not start with a parenthesis, so one rendering shows the pair and the other does not.
  exact hdiffer ((readsAlong htok harg).eq_of_wrap hparen (standInFor_of_ne hx) heq)

end Trial

/-! ## The verdict -/

/-- Whether parentheses are required for a face `f` in place of the expression with the id `t`, seen
from a node with `t` below it in a slot with `ctx`. The path leads through parentheses that both
renderings show or both leave out. -/
inductive Verdict (t : NodeId) (f : Face) : AnyNode → Ctx → Bool → Prop
  | target {x : Expr} (ctx : Ctx) (hx : x.id = t) : Verdict t f ⟨x⟩ ctx (f.needsParens ctx)
  | piece {n m : AnyNode} {ctx ctx' : Ctx} {k : Nat} {b : Bool} (hn : n.node.id ≠ t)
      (hparen : n.node.isParen = false) (hm : .sub k ctx' m ∈ n.node.written ctx)
      (h : Verdict t f m ctx' b) : Verdict t f n ctx b
  | paren {id : NodeId} {x : Expr} {ctx : Ctx} {b : Bool} (hn : id ≠ t)
      (hsame : (x.face (f.standing t)).needsParens ctx =
        (x.face (Face.closed.standing t)).needsParens ctx)
      (h : Verdict t f ⟨x⟩ (if (x.face (f.standing t)).needsParens ctx then .plain else ctx) b) :
      Verdict t f ⟨.paren id x⟩ ctx b
  /-- Written parentheses around `t` itself are shown exactly where it has none of its own. -/
  | supplied {id : NodeId} {x : Expr} {ctx : Ctx} (hn : id ≠ t) (hx : x.id = t)
      (hneeds : f.needsParens ctx = true) : Verdict t f ⟨.paren id x⟩ ctx false
  /-- Written parentheses around more than `t` are shown by one rendering only. -/
  | shifted {id : NodeId} {x : Expr} {ctx : Ctx} (hn : id ≠ t) (hx : x.id ≠ t)
      (hdiffer : (x.face (f.standing t)).needsParens ctx ≠
        (x.face (Face.closed.standing t)).needsParens ctx) : Verdict t f ⟨.paren id x⟩ ctx true

namespace Verdict

variable {t : NodeId} {f : Face} {n : AnyNode} {ctx : Ctx} {b : Bool}

theorem mem_ids (h : Verdict t f n ctx b) : t ∈ n.ids := by
  have hinside : ∀ {id : NodeId} {x : Expr}, t ∈ AnyNode.ids ⟨x⟩ → t ∈ AnyNode.ids ⟨.paren id x⟩ := by
    intro id x hx
    obtain ⟨y, hy, rfl⟩ := mem_ids_iff.mp hx
    refine id_mem_ids (mem_nodes_of_child ?_ hy)
    simp [AnyNode.children, Node.children, Slot.one]
  induction h with
  | target ctx hx => exact hx ▸ id_mem_ids (self_mem_nodes _)
  | piece _ _ hm _ ih =>
    obtain ⟨y, hy, rfl⟩ := mem_ids_iff.mp ih
    exact id_mem_ids (Node.mem_nodes_of_piece hm hy)
  | paren _ _ _ ih => exact hinside ih
  | supplied _ hx => exact hinside (hx ▸ id_mem_ids (self_mem_nodes _))
  | shifted _ _ hdiffer =>
    refine hinside ?_
    by_contra hx
    exact hdiffer (by rw [Node.face_standing hx, Node.face_standing hx])

/-- The two renderings agree exactly if the verdict is that no parentheses are required. -/
theorem renders_iff {arg : Expr} (h : Verdict t (arg.face fun _ => none) n ctx b)
    (hids : n.DistinctIds) (htok : n.HasTokens) (harg : InStep ⟨arg⟩)
    (hctx : ctx.minPrec ≤ primaryPrec) (depth : Nat) :
    n.node.chars (.trying t arg false) depth ctx = n.node.chars (.trying t arg true) depth ctx ↔
      b = false := by
  induction h generalizing depth with
  | target ctx hx => exact Trial.chars_target_eq_iff harg hx hctx depth
  | @piece n m ctx ctx' k b hn hparen hm h ih =>
    have hmem : m ∈ n.nodes := Node.mem_nodes_of_piece hm m.self_mem_nodes
    rw [Trial.chars_piece_eq_iff hids hn hparen hm h.mem_ids]
    exact ih (hids.of_mem hmem) (htok.of_mem hmem) (Node.minPrec_of_piece hm hctx) (depth + k)
  | @paren id x ctx b hn hsame h ih =>
    have hmem : ⟨x⟩ ∈ AnyNode.nodes ⟨.paren id x⟩ := by
      apply child_mem_nodes
      simp [AnyNode.children, Node.children]
    rw [Trial.chars_paren _ hn, Trial.chars_paren _ hn]
    simp only [Trial.showsParens_trying, if_true, Bool.false_eq_true, if_false, ← hsame, wrap_inj]
    refine ih (hids.of_mem hmem) (htok.of_mem hmem) ?_ depth
    split
    · exact Nat.zero_le _
    · exact hctx
  | @supplied id x ctx hn hx hneeds =>
    rw [Trial.chars_paren _ hn, Trial.chars_paren _ hn]
    simp only [Trial.showsParens_trying, if_true, Bool.false_eq_true, if_false,
      Node.face_of_id hx, hneeds, Face.needsParens_closed hctx]
    subst hx
    simp [Trial.chars_target, hneeds, wrap]
  | @shifted id x ctx hn hx hdiffer =>
    have hmem : ⟨x⟩ ∈ AnyNode.nodes ⟨.paren id x⟩ := by
      apply child_mem_nodes
      simp [AnyNode.children, Node.children]
    -- Written parentheses look the same in both renderings.
    have hparen : x.isParen = false := by
      cases x <;> try rfl
      case paren id' y =>
        have hnone : ∀ g : Face, g.standing t id' = none := fun g => if_neg (Ne.symm hx)
        exact (hdiffer (by rw [Node.face_paren (hnone _), Node.face_paren (hnone _)])).elim
    simp only [Bool.true_eq_false, iff_false]
    exact Trial.chars_paren_ne (htok.of_mem hmem) harg hn hx hdiffer hparen depth

theorem eq_false_of_closed (h : Verdict t .closed n ctx b) (hctx : ctx.minPrec ≤ primaryPrec) :
    b = false := by
  induction h with
  | target ctx hx => exact Face.needsParens_closed hctx
  | piece _ _ hm _ ih => exact ih (Node.minPrec_of_piece hm hctx)
  | paren _ _ _ ih =>
    refine ih ?_
    split
    · exact Nat.zero_le _
    · exact hctx
  | supplied => rfl
  | shifted _ _ hdiffer => exact (hdiffer rfl).elim

theorem eq_of_target {x : Expr} (h : Verdict t f ⟨x⟩ ctx b) (hx : x.id = t) :
    b = f.needsParens ctx := by
  cases h with
  | target => rfl
  | piece hn | paren hn | supplied hn | shifted hn => exact (hn hx).elim

theorem congr_child {p : AnyNode} {x : Expr} {g : Face} (hids : p.DistinctIds)
    (hx : ⟨x⟩ ∈ p.children) (hheader : p.hasHeader = false) (hseen : f.seen false = g.seen false)
    (h : Verdict x.id f p .plain b) : Verdict x.id g p .plain b := by
  have hmem : ⟨x⟩ ∈ p.nodes := child_mem_nodes hx
  have hne : p.node.id ≠ x.id := by
    intro hid
    cases hids.eq_of_id p.self_mem_nodes hmem hid
    exact not_mem_nodes_child hx (self_mem_nodes _)
  have hneeds : ∀ ctx : Ctx, ctx.inHeader = false → f.needsParens ctx = g.needsParens ctx := by
    intro ctx hctx
    rw [← f.needsParens_seen, ← g.needsParens_seen, hctx, hseen]
  cases h with
  | target ctx hid => exact (hne hid).elim
  | @piece _ m _ ctx' k b hn hparen hm hv =>
    have hxm := hids.mem_of_id (Node.mem_nodes_of_piece hm m.self_mem_nodes) hmem hv.mem_ids
    have hm' : m ∈ p.children := by
      rcases Node.cases_of_piece hm with hm' | ⟨-, hmethod⟩
      · exact hm'
      · change InMethod p m at hmethod
        cases hmethod
        simp [AnyNode.children, Node.children] at hx
    cases hids.children_eq hx hm' (self_mem_nodes _) hxm
    have hctx' : ctx'.inHeader = false := by
      by_contra hin
      rcases Node.inHeader_of_piece hm (by simpa using hin) with hhead | ⟨hctx, -⟩
      · exact absurd (hheader.symm.trans hhead) (by decide)
      · cases hctx
    refine .piece hn hparen hm ?_
    rw [hv.eq_of_target rfl, hneeds ctx' hctx']
    exact .target ctx' rfl
  | @paren id y _ _ hid _ hv =>
    obtain rfl : x = y := by simpa [AnyNode.children, Node.children] using hx
    refine .paren hid (by simp) ?_
    rw [ite_self] at hv ⊢
    rw [hv.eq_of_target rfl, hneeds .plain rfl]
    exact .target .plain rfl
  | supplied _ _ hneeds => simp at hneeds
  | shifted _ _ hdiffer => simp at hdiffer

end Verdict

theorem Shows.exists_verdict {n : AnyNode} {x : Expr} {ctx₁ ctx₂ : Ctx} (h : Shows n ctx₁ ⟨x⟩ ctx₂)
    (hids : n.DistinctIds) (f : Face) {ctx : Ctx} (hctx : ctx.minPrec ≤ primaryPrec) :
    ∃ b, Verdict x.id f n ctx b := by
  generalize hy : (⟨x⟩ : AnyNode) = y at h
  induction h generalizing ctx with
  | self n ctx₁ =>
    subst hy
    exact ⟨_, .target ctx rfl⟩
  | @piece n m y ctx₁ ctx₃ ctx₂ k hm h ih =>
    subst hy
    have hmem : m ∈ n.nodes := Node.mem_nodes_of_piece hm m.self_mem_nodes
    have hn : n.node.id ≠ x.id := by
      intro he
      have heq := hids.eq_of_id n.self_mem_nodes (mem_nodes_trans hmem h.mem_nodes) he
      exact Node.ne_of_piece hm (heq ▸ h.mem_nodes)
    cases hparen : n.node.isParen with
    | false =>
      obtain ⟨ctx', hm'⟩ := Node.exists_slot_in hm ctx
      obtain ⟨b, hb⟩ := ih (hids.of_mem hmem) (Node.minPrec_of_piece hm' hctx) rfl
      exact ⟨b, .piece hn hparen hm' hb⟩
    | true =>
      obtain ⟨n⟩ := n
      cases n <;> simp [Node.isParen] at hparen
      case paren id e =>
        simp [Node.pieces] at hm
        obtain ⟨rfl, rfl, rfl⟩ := hm
        by_cases hsame : (e.face (f.standing x.id)).needsParens ctx =
            (e.face (Face.closed.standing x.id)).needsParens ctx
        · have hctx' : (if (e.face (f.standing x.id)).needsParens ctx then Ctx.plain
              else ctx).minPrec ≤ primaryPrec := by
            split
            · exact Nat.zero_le _
            · exact hctx
          obtain ⟨b, hb⟩ := ih (hids.of_mem hmem) hctx' rfl
          exact ⟨b, .paren hn hsame hb⟩
        · by_cases he : e.id = x.id
          · rw [Node.face_of_id he, Node.face_of_id he, Face.needsParens_closed hctx,
              Bool.not_eq_false] at hsame
            exact ⟨false, .supplied hn he hsame⟩
          · exact ⟨true, .shifted hn he hsame⟩

theorem ParensTrial.required_eq {parent : AnyNode} {rest : List AnyNode} {t : NodeId} {arg : Expr}
    {trial : ParensTrial} (hrun : run (parent :: rest) t arg = some trial) {b : Bool}
    (h : Verdict t (arg.face fun _ => none) (surroundings parent (parent :: rest)) .plain b)
    (hids : (surroundings parent (parent :: rest)).DistinctIds)
    (htok : (surroundings parent (parent :: rest)).HasTokens) (harg : InStep ⟨arg⟩) :
    trial.required = b := by
  simp only [run, List.head?_cons, Option.bind_eq_bind, Option.bind_some, Option.bind_eq_some_iff,
    Option.pure_def, Option.some.injEq] at hrun
  obtain ⟨slot, -, rfl⟩ := hrun
  have hiff := h.renders_iff hids htok harg (Nat.zero_le _) 0
  simp only [Node.chars, String.toList_inj] at hiff
  cases b <;> simpa [required, render, print] using hiff

end ConvSweep
