import ConvSweep.Print.Render
import ConvSweep.Proofs.Positions

/-! # Reading two prints of a node in step

Prints of the same node in different styles and contexts differ in parentheses only. Two texts that
begin with such prints and agree so far agree in what follows.
-/

namespace ConvSweep

open AnyNode

/-! ## Prints as characters -/

/-- The characters that a style prints for a node. -/
def Node.chars {c : Category} (style : Style) (depth : Nat) (ctx : Ctx) (n : Node c) : List Char :=
  (n.doc style depth ctx).toString.toList

def Piece.chars (style : Style) (depth : Nat) (p : Piece) : List Char :=
  (p.doc style depth).toString.toList

@[simp] theorem Piece.chars_text (style : Style) (depth : Nat) (s : String) :
    (Piece.text s).chars style depth = s.toList := rfl

@[simp] theorem Piece.chars_sub (style : Style) (depth k : Nat) (ctx : Ctx) (m : AnyNode) :
    (Piece.sub k ctx m).chars style depth = m.node.chars style (depth + k) ctx := rfl

theorem Node.chars_eq {c : Category} {style : Style} {n : Node c} (h : style.standInFor n = none)
    (depth : Nat) (ctx : Ctx) :
    n.chars style depth ctx = (n.pieces style.showsParens ctx).flatMap (Piece.chars style depth) := by
  rw [chars, doc_eq, h]
  simp only [toString_mark]
  induction n.pieces style.showsParens ctx with
  | nil => rfl
  | cons p ps ih =>
    rw [List.map_cons, Doc.join_cons, Doc.toString, String.toList_append, ih]
    rfl

/-- Nothing stands in for the node or for a node below it. -/
def Style.Spares (style : Style) (n : AnyNode) : Prop := ∀ x ∈ n.nodes, style.standIn x.id = none

theorem Style.Spares.of_mem {style : Style} {n m : AnyNode} (h : style.Spares n)
    (hm : m ∈ n.nodes) : style.Spares m := fun x hx => h x (mem_nodes_trans hm hx)

theorem Style.Spares.standInFor {style : Style} {n : AnyNode} (h : style.Spares n) :
    style.standInFor n.node = none := by
  unfold Style.standInFor
  split
  · exact h n n.self_mem_nodes
  · rfl

/-- Every name and every literal begins with a character that is no opening parenthesis, as tokens
do. -/
def AnyNode.HasTokens (n : AnyNode) : Prop := ∀ x ∈ n.nodes, ∀ s ∈ x.node.word?, StartsOff '(' s

theorem AnyNode.hasTokens_iff {n : AnyNode} :
    n.HasTokens ↔
      n.nodes.all (fun x => x.node.word?.all fun s => s.toList.head?.any (· ≠ '(')) = true := by
  simp [HasTokens, StartsOff, Option.all_eq_true, Option.any_eq_true]

theorem AnyNode.HasTokens.of_mem {n m : AnyNode} (h : n.HasTokens) (hm : m ∈ n.nodes) :
    m.HasTokens := fun x hx => h x (mem_nodes_trans hm hx)

/-! ## In step -/

theorem StartsOff.cons_toList {c : Char} {s : String} (h : StartsOff c s) :
    ∃ d l, s.toList = d :: l ∧ d ≠ c := by
  obtain ⟨d, hd, hne⟩ := h
  cases hs : s.toList with
  | nil => simp [hs] at hd
  | cons a l =>
    rw [hs, List.head?_cons, Option.some.injEq] at hd
    exact ⟨a, l, rfl, hd ▸ hne⟩

theorem StartsOff.eq_of_replicate {c : Char} {s : String} (h : StartsOff c s) {j k : Nat}
    {a b : List Char}
    (heq : List.replicate j c ++ (s.toList ++ a) = List.replicate k c ++ (s.toList ++ b)) : j = k := by
  obtain ⟨d, l, hs, hne⟩ := h.cons_toList
  rw [hs] at heq
  induction j generalizing k with
  | zero =>
    cases k with
    | zero => rfl
    | succ k => exact (hne (List.cons.inj heq).1).elim
  | succ j ih =>
    cases k with
    | zero => exact (hne (List.cons.inj heq).1.symm).elim
    | succ k => rw [ih (List.cons.inj heq).2]

/-- The prints of a node in two styles read alike: opening parentheses before them are closed after
them, and before a node that is printed piece by piece and is not itself in parentheses there are as
many as before the other print. -/
def Style.ReadsAlong (S T : Style) (n : AnyNode) : Prop :=
  ∀ ⦃j k depth : Nat⦄ ⦃ctx ctx' : Ctx⦄ ⦃s t : List Char⦄, (n.isExpr = true ∨ j = 0 ∧ k = 0) →
    List.replicate j '(' ++ (n.node.chars S depth ctx ++ s) =
      List.replicate k '(' ++ (n.node.chars T depth ctx' ++ t) →
    List.replicate k ')' ++ s = List.replicate j ')' ++ t ∧
      (n.node.isParen = false → S.standInFor n.node = none → j = k)

/-- Two prints of the node read alike: opening parentheses before them are closed after them, and
before a node that is not itself in parentheses there are as many as before the other print. -/
def AnyNode.InStep (n : AnyNode) : Prop :=
  ∀ S T : Style, S.Spares n → T.Spares n → ∀ j k depth ctx ctx' s t,
    (n.isExpr = true ∨ j = 0 ∧ k = 0) →
    List.replicate j '(' ++ (n.node.chars S depth ctx ++ s) =
      List.replicate k '(' ++ (n.node.chars T depth ctx' ++ t) →
    List.replicate k ')' ++ s = List.replicate j ')' ++ t ∧ (n.node.isParen = false → j = k)

/-- The same pieces in any contexts. -/
abbrev Piece.Alike : Piece → Piece → Prop := Piece.Aligned fun _ _ => True

theorem Node.pieces_alike {c : Category} (n : Node c) (hn : n.isParen = false)
    (shows shows' : Ctx → Node .expr → Bool) (ctx ctx' : Ctx) :
    List.Forall₂ Piece.Alike (n.pieces shows ctx) (n.pieces shows' ctx') :=
  n.pieces_aligned ⟨fun _ => trivial, fun _ _ => trivial, fun _ _ _ => trivial⟩ _ _ trivial hn

theorem Piece.row_in_step {S T : Style} {depth : Nat} {ps qs : List Piece}
    (hal : List.Forall₂ Alike ps qs)
    (hsub : ∀ k ctx m, .sub k ctx m ∈ ps → S.ReadsAlong T m) {s t : List Char}
    (h : ps.flatMap (chars S depth) ++ s = qs.flatMap (chars T depth) ++ t) : s = t := by
  induction hal with
  | nil => exact h
  | cons hpq _ ih =>
    refine ih (fun k ctx m hm => hsub k ctx m (List.mem_cons_of_mem _ hm)) ?_
    rw [List.flatMap_cons, List.flatMap_cons, List.append_assoc, List.append_assoc] at h
    cases hpq with
    | text s => exact List.append_cancel_left h
    | line k => exact List.append_cancel_left h
    | sub k m _ =>
      have hm : S.ReadsAlong T m := hsub k _ m List.mem_cons_self
      exact (hm (j := 0) (k := 0) (Or.inr ⟨rfl, rfl⟩) h).1

/-! ## Parentheses -/

/-- A text in parentheses or bare. -/
def wrap (shown : Bool) (l : List Char) : List Char :=
  List.replicate shown.toNat '(' ++ (l ++ List.replicate shown.toNat ')')

theorem Node.chars_paren {style : Style} {id : NodeId} {x : Expr}
    (h : style.standInFor (.paren id x) = none) (depth : Nat) (ctx : Ctx) :
    (Node.paren id x).chars style depth ctx =
      wrap (style.showsParens ctx x)
        (x.chars style depth (if style.showsParens ctx x then .plain else ctx)) := by
  rw [chars_eq h, Node.pieces]
  cases style.showsParens ctx x <;> simp [Piece.child, wrap]

theorem replicate_append_wrap (j : Nat) (b : Bool) (l s : List Char) :
    List.replicate j '(' ++ (wrap b l ++ s) =
      List.replicate (j + b.toNat) '(' ++ (l ++ (List.replicate b.toNat ')' ++ s)) := by
  simp only [wrap, List.replicate_add, List.append_assoc]

theorem Style.ReadsAlong.of_wrap {x : Expr} {S T : Style} (hx : S.ReadsAlong T ⟨x⟩) {b b' : Bool}
    {j k depth : Nat} {ctx ctx' : Ctx} {s t : List Char}
    (heq : List.replicate j '(' ++ (wrap b (x.chars S depth ctx) ++ s) =
      List.replicate k '(' ++ (wrap b' (x.chars T depth ctx') ++ t)) :
    List.replicate k ')' ++ s = List.replicate j ')' ++ t := by
  rw [replicate_append_wrap, replicate_append_wrap] at heq
  have hrest := (hx (Or.inl rfl) heq).1
  have hk : k + b'.toNat + b.toNat = b.toNat + b'.toNat + k := by omega
  have hj : j + b.toNat + b'.toNat = b.toNat + b'.toNat + j := by omega
  rw [← List.append_assoc, ← List.append_assoc, ← List.replicate_add, ← List.replicate_add, hk, hj,
    List.replicate_add _ k, List.replicate_add _ j, List.append_assoc, List.append_assoc] at hrest
  exact List.append_cancel_left hrest

/-! ## Every node -/

theorem Node.Opens.eq_of_rows {n : Node .expr} {ps qs : List Piece} (ho : n.Opens ps)
    (hal : List.Forall₂ Piece.Alike ps qs) (hword : ∀ s ∈ n.word?, StartsOff '(' s) {S T : Style}
    (hfirst : ∀ k ctx m, ps.head? = some (.sub k ctx m) → S.ReadsAlong T m)
    {j k depth : Nat} {s t : List Char}
    (heq : List.replicate j '(' ++ (ps.flatMap (Piece.chars S depth) ++ s) =
      List.replicate k '(' ++ (qs.flatMap (Piece.chars T depth) ++ t)) : j = k := by
  cases ho with
  | word w hw =>
    cases hal with
    | cons hpq hrest =>
      cases hpq
      cases hrest
      simp only [List.flatMap_cons, List.append_assoc, Piece.chars_text] at heq
      exact (hword w hw).eq_of_replicate heq
  | text w rest hw =>
    cases hal with
    | cons hpq hrest =>
      cases hpq
      simp only [List.flatMap_cons, List.append_assoc, Piece.chars_text] at heq
      exact hw.eq_of_replicate heq
  | operand ctx₁ x z rest hz =>
    cases hal with
    | cons hpq hrest =>
      cases hpq
      cases hrest with
      | cons hpq' hrest =>
        cases hpq'
        simp only [List.flatMap_cons, List.append_assoc, Piece.chars_sub, Piece.chars_text] at heq
        have := (hfirst _ _ _ rfl (Or.inl rfl) heq).1
        exact (hz.eq_of_replicate this).symm

theorem AnyNode.readsAlong {S T : Style} {n : AnyNode} (htok : n.HasTokens)
    (h : ∀ x ∈ n.nodes, (S.standInFor x.node = none ∧ T.standInFor x.node = none) ∨
      S.ReadsAlong T x) : S.ReadsAlong T n := by
  induction n using AnyNode.print_induct with
  | step n ih =>
    rcases h n n.self_mem_nodes with ⟨hS, hT⟩ | hn
    · intro j k depth ctx ctx' s t hjk heq
      have hsub : ∀ shows ctx k' ctx₁ m, .sub k' ctx₁ m ∈ n.node.pieces shows ctx →
          S.ReadsAlong T m := by
        intro shows ctx k' ctx₁ m hm
        have hmem := Node.mem_nodes_of_piece hm m.self_mem_nodes
        exact ih _ _ _ _ _ hm (htok.of_mem hmem) fun x hx => h x (mem_nodes_trans hmem hx)
      cases hparen : n.node.isParen with
      | true =>
        obtain ⟨n⟩ := n
        cases n <;> simp [Node.isParen] at hparen
        case paren id x =>
          rw [Node.chars_paren hS, Node.chars_paren hT] at heq
          have hx : S.ReadsAlong T ⟨x⟩ :=
            hsub (fun _ _ => true) ctx 0 .plain ⟨x⟩ (by simp [Node.pieces, Piece.child])
          exact ⟨hx.of_wrap heq, by simp⟩
      | false =>
        have hal := n.node.pieces_alike hparen S.showsParens T.showsParens ctx ctx'
        rw [Node.chars_eq hS, Node.chars_eq hT] at heq
        -- An expression without parentheses around it opens with something else; before any other
        -- node there are none.
        have hlevel : j = k := by
          rcases hjk with hexpr | ⟨rfl, rfl⟩
          · obtain ⟨n⟩ := n
            simp only [isExpr, decide_eq_true_eq] at hexpr
            subst hexpr
            exact (n.opens_pieces hparen S.showsParens ctx).eq_of_rows hal (htok _ (self_mem_nodes _))
              (fun k' ctx₁ m hm => hsub _ _ k' ctx₁ m (List.mem_of_head? hm)) heq
          · rfl
        subst hlevel
        rw [Piece.row_in_step hal (hsub _ _) (List.append_cancel_left heq)]
        exact ⟨rfl, fun _ _ => rfl⟩
    · exact hn

theorem AnyNode.inStep {n : AnyNode} (htok : n.HasTokens) : n.InStep := by
  intro S T hS hT j k depth ctx ctx' s t hjk heq
  have hreads : S.ReadsAlong T n :=
    readsAlong htok fun x hx => Or.inl ⟨(hS.of_mem hx).standInFor, (hT.of_mem hx).standInFor⟩
  obtain ⟨hrest, hlevel⟩ := hreads hjk heq
  exact ⟨hrest, fun hparen => hlevel hparen hS.standInFor⟩

theorem AnyNode.InStep.readsAlong {n : AnyNode} (h : n.InStep) {S T : Style} (hS : S.Spares n)
    (hT : T.Spares n) : S.ReadsAlong T n := by
  intro j k depth ctx ctx' s t hjk heq
  obtain ⟨hrest, hlevel⟩ := h S T hS hT j k depth ctx ctx' s t hjk heq
  exact ⟨hrest, fun hparen _ => hlevel hparen⟩

end ConvSweep
