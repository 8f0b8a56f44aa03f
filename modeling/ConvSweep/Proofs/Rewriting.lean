import Mathlib.Data.List.Perm.Basic
import ConvSweep.Proofs.LeftText
import ConvSweep.Proofs.Overlap

/-! # Deleting the edits prints the pruned tree

A printed node is cut into chunks: what a conversion that goes leaves behind is kept, the rest of
it is dropped. The kept chunks are the text that is left, which is that of the pruned node, and the
dropped ones are the edits.
-/

namespace ConvSweep

open AnyNode

/-- Edits for the conversions of a plan: each conversion that goes has the edits of its remnant. -/
structure Plan.Edited (unit : SourceUnit) (plan : Plan) (edits : NodeId → List Edit)
    (n : AnyNode) : Prop where
  goes : ∀ x ∈ n.nodes, ∀ r, plan x.id = some r →
    ∃ id callee arg, x = ⟨.call id callee [arg] false⟩ ∧
      ∃ span parens argSpan, unit.span? id = some span ∧ unit.parens? id = some parens ∧
        unit.span? arg.id = some argSpan ∧ edits id = (r.removal span parens argSpan).edits
  stays : ∀ x ∈ n.nodes, plan x.id = none → edits x.id = []
  callees : n.node.CalleesStay plan
  words : n.HasWords

/-- Edits that leave the text of the pruned node. -/
structure Plan.Realized (unit : SourceUnit) (plan : Plan) (edits : NodeId → List Edit)
    (n : AnyNode) : Prop extends plan.Edited unit edits n where
  methods : ∀ x ∈ n.nodes, x.node.MethodTypesStay plan

theorem Plan.Edited.of_mem {unit : SourceUnit} {plan : Plan} {edits : NodeId → List Edit}
    {n m : AnyNode} (h : plan.Edited unit edits n) (hm : m ∈ n.nodes) :
    plan.Edited unit edits m where
  goes x hx := h.goes x (mem_nodes_trans hm hx)
  stays x hx := h.stays x (mem_nodes_trans hm hx)
  callees id callee arg spread hmem := h.callees id callee arg spread (mem_nodes_trans hm hmem)
  words x hx := h.words x (mem_nodes_trans hm hx)

/-- Chunks that turn the document `d`, printed at `start`, into the text `left`. -/
structure Chunk.Turns (edits : NodeId → List Edit) (start : Nat) (d : Doc) (left : String)
    (cs : List Chunk) : Prop where
  proper : Proper cs
  whole : whole cs = d.toString
  kept : kept cs = left
  edits : (Chunk.edits start cs).Perm ((d.parenPairs start).flatMap fun p => edits p.1)

namespace Chunk

variable {edits : NodeId → List Edit} {start : Nat}

theorem turns_text (s : String) : Turns edits start (.text s) s [.keep s] where
  proper := by simp [Proper]
  whole := by simp [Chunk.whole, Doc.toString]
  kept := by simp [Chunk.kept]
  edits := by simp [Chunk.edits, Doc.parenPairs]

theorem Turns.append {a b : Doc} {left left' : String} {cs ds : List Chunk}
    (ha : Turns edits start a left cs) (hb : Turns edits (start + a.width) b left' ds) :
    Turns edits start (.append a b) (left ++ left') (cs ++ ds) where
  proper s hs := (List.mem_append.mp hs).elim (ha.proper s) (hb.proper s)
  whole := by rw [whole_append, ha.whole, hb.whole, Doc.toString]
  kept := by rw [kept_append, ha.kept, hb.kept]
  edits := by
    rw [edits_append, ha.whole, Doc.utf8ByteSize_toString, Doc.parenPairs, List.flatMap_append]
    exact ha.edits.append hb.edits

theorem exists_turns_row {unit : SourceUnit} {plan : Plan} {depth : Nat} {ps : List Piece}
    (hps : ∀ k ctx m, .sub k ctx m ∈ ps → ∀ start depth,
      (m.node.doc .faithful depth ctx).PlacedAt unit start →
      ∃ cs, Turns edits start (m.node.doc .faithful depth ctx) (m.node.leftText plan depth) cs)
    (hplaced : (Piece.row depth ps).PlacedAt unit start) :
    ∃ cs, Turns edits start (Piece.row depth ps)
      (String.join (ps.map (Piece.leftText plan depth))) cs := by
  induction ps generalizing start with
  | nil => exact ⟨[], by simp [Proper], rfl, rfl, .nil⟩
  | cons p ps ih =>
    obtain ⟨ds, hds⟩ := ih (fun k ctx m hm => hps k ctx m (List.mem_cons_of_mem _ hm)) hplaced.right
    have hhead : ∃ cs, Turns edits start (p.doc .faithful depth) (p.leftText plan depth) cs := by
      cases p with
      | text s => exact ⟨_, turns_text s⟩
      | line k => exact ⟨_, turns_text _⟩
      | sub k ctx m => exact hps k ctx m List.mem_cons_self start _ hplaced.left
    obtain ⟨cs, hcs⟩ := hhead
    rw [List.map_cons, String.join_cons]
    exact ⟨cs ++ ds, hcs.append hds⟩

/-! ## A conversion that goes -/

section

variable {id : NodeId} {f a : Doc} {left : String} {cs : List Chunk}

/-- A call of one argument, as it is printed. -/
abbrev callDoc (id : NodeId) (f a : Doc) : Doc :=
  .span id (.append f (.parens id (.append (.text "(") (.append a (.append (.text ")") .nil)))))

theorem flatMap_callDoc (hf : ∀ p ∈ f.parenPairs start, edits p.1 = []) :
    ((callDoc id f a).parenPairs start).flatMap (fun p => edits p.1) =
      (a.parenPairs (start + f.width + 1)).flatMap (fun p => edits p.1) ++ edits id := by
  have hone : (Doc.text "(").width = 1 := rfl
  have hnone : (f.parenPairs start).flatMap (fun p => edits p.1) = [] :=
    List.flatMap_eq_nil_iff.mpr hf
  simp only [Doc.parenPairs, hone, List.nil_append, List.append_nil, List.flatMap_append,
    List.flatMap_cons, List.flatMap_nil, hnone]

theorem toString_callDoc : (callDoc id f a).toString = f.toString ++ ("(" ++ (a.toString ++ ")")) := by
  simp [Doc.toString]

theorem Turns.strip (hcs : Turns edits (start + f.width + 1) a left cs)
    (hf : ∀ p ∈ f.parenPairs start, edits p.1 = [])
    (hid : edits id = [⟨start, start + f.width + 1⟩,
      ⟨start + f.width + 1 + a.width, start + f.width + 1 + a.width + 1⟩]) :
    Turns edits start (callDoc id f a) left (.drop (f.toString ++ "(") :: cs ++ [.drop ")"]) where
  proper := by
    intro s hs
    rcases List.mem_append.mp hs with hs | hs
    · rcases List.mem_cons.mp hs with hs | hs
      · cases hs
        simp
      · exact hcs.proper s hs
    · cases List.mem_singleton.mp hs
      simp
  whole := by
    rw [whole_append, Chunk.whole, hcs.whole, toString_callDoc]
    simp [Chunk.whole, String.append_assoc]
  kept := by
    rw [kept_append, Chunk.kept, hcs.kept]
    simp [Chunk.kept]
  edits := by
    have hwidth : (f.toString ++ "(").utf8ByteSize = f.width + 1 := by
      rw [String.utf8ByteSize_append, Doc.utf8ByteSize_toString]
      rfl
    have hclose : ")".utf8ByteSize = 1 := rfl
    rw [flatMap_callDoc hf, hid, edits_append, Chunk.edits, hwidth, ← Nat.add_assoc, Chunk.whole,
      hcs.whole, String.utf8ByteSize_append, hwidth, Doc.utf8ByteSize_toString, Chunk.edits, hclose,
      ← Nat.add_assoc, ← Nat.add_assoc, Chunk.edits]
    exact ((hcs.edits.append_right _).cons _).trans List.perm_middle.symm

theorem Turns.keep (hcs : Turns edits (start + f.width + 1) a left cs)
    (hf : ∀ p ∈ f.parenPairs start, edits p.1 = []) (hne : 0 < f.width)
    (hid : edits id = [⟨start, start + f.width⟩]) :
    Turns edits start (callDoc id f a) ("(" ++ (left ++ ")"))
      (.drop f.toString :: .keep "(" :: cs ++ [.keep ")"]) where
  proper := by
    intro s hs
    rcases List.mem_append.mp hs with hs | hs
    · simp only [List.mem_cons, reduceCtorEq, false_or] at hs
      rcases hs with hs | hs
      · cases hs
        intro hempty
        rw [← Doc.utf8ByteSize_toString, hempty] at hne
        exact absurd hne (by decide)
      · exact hcs.proper s hs
    · cases List.mem_singleton.mp hs
  whole := by
    rw [whole_append, toString_callDoc]
    simp [Chunk.whole, hcs.whole, String.append_assoc]
  kept := by
    rw [kept_append]
    simp [Chunk.kept, hcs.kept, String.append_assoc]
  edits := by
    have hopen : "(".utf8ByteSize = 1 := rfl
    rw [flatMap_callDoc hf, hid, edits_append, Chunk.edits, Chunk.edits, Chunk.edits, Chunk.edits,
      List.append_nil, Doc.utf8ByteSize_toString, hopen]
    exact (hcs.edits.cons _).trans (List.perm_append_singleton _ _).symm

end

end Chunk

/-! ## Every node -/

theorem Node.flatMap_parenPairs {c : Category} {n : Node c} {edits : NodeId → List Edit}
    (hn : n.isCall = true → edits n.id = []) (start depth : Nat) (ctx : Ctx) :
    ((n.doc .faithful depth ctx).parenPairs start).flatMap (fun p => edits p.1) =
      ((Piece.row depth (n.written ctx)).parenPairs start).flatMap (fun p => edits p.1) := by
  rw [doc_faithful]
  cases hcall : n.isCall with
  | true =>
    have hid := hn hcall
    cases n <;> simp [isCall] at hcall
    case call id callee args spread =>
      change (Doc.parenPairs start (.append _ (.parens id _))).flatMap _ = _
      rw [Doc.parenPairs, Doc.parenPairs, ← List.append_assoc, List.flatMap_append]
      simp only [List.flatMap_cons, List.flatMap_nil, List.append_nil]
      rw [show edits id = [] from hid, List.append_nil]
      rfl
  | false =>
    rw [mark_of_not_call hcall]
    split <;> rfl

open Chunk in
theorem Node.exists_turns_conversion {unit : SourceUnit} {plan : Plan} {edits : NodeId → List Edit}
    {id : NodeId} {callee arg : Expr} {spread : Bool} {r : Remnant}
    (h : plan.Edited unit edits ⟨.call id callee [arg] spread⟩) (hr : plan id = some r)
    {start depth : Nat} {ctx : Ctx}
    (hplaced : ((Node.call id callee [arg] spread).doc .faithful depth ctx).PlacedAt unit start)
    (harg : ∀ start, (arg.doc .faithful depth .plain).PlacedAt unit start →
      ∃ cs, Turns edits start (arg.doc .faithful depth .plain) (arg.leftText plan depth) cs) :
    ∃ cs, Turns edits start ((Node.call id callee [arg] spread).doc .faithful depth ctx)
      ((Node.call id callee [arg] spread).leftText plan depth) cs := by
  obtain ⟨_, _, _, heq, span, parens, argSpan, hspan, hparens, hargSpan, hedits⟩ :=
    h.goes _ (self_mem_nodes _) r hr
  cases heq
  obtain ⟨hcall, hpair, -, hcallee, hplacedArg, hargAt⟩ := hplaced.call
  obtain ⟨cs, hcs⟩ := harg _ hplacedArg
  cases Option.some.inj (hspan.symm.trans hcall)
  cases Option.some.inj (hparens.symm.trans hpair)
  cases Option.some.inj (hargSpan.symm.trans hargAt)
  have hclose : (closing false).utf8ByteSize = 1 := rfl
  have hmem : (⟨callee⟩ : AnyNode) ∈ AnyNode.nodes ⟨.call id callee [arg] false⟩ := by
    apply child_mem_nodes
    simp [AnyNode.children, Node.children, Slot.one]
  -- Nothing inside the callee goes, so no edit falls between the call and its argument.
  have hnone : ∀ p ∈ (callee.doc .faithful depth (ctx.prec primaryPrec)).parenPairs start,
      edits p.1 = [] := by
    intro p hp
    have hid := (Doc.collects_parenPairs.subperm ⟨callee⟩ start depth _).subset (List.mem_map_of_mem hp)
    obtain ⟨x, hx, hxid⟩ := mem_ids_iff.mp hid
    rw [← hxid]
    exact h.stays x (mem_nodes_trans hmem hx)
      (h.callees id callee arg false (self_mem_nodes _) (by simp [hr]) x hx)
  rw [doc_call]
  cases r with
  | bare =>
    rw [leftText_bare hr]
    refine ⟨_, hcs.strip hnone ?_⟩
    rw [hedits, hclose]
    simp only [Remnant.removal, Removal.stripParens]
    congr 3
    omega
  | wrapped =>
    rw [leftText_wrapped hr]
    refine ⟨_, hcs.keep hnone (width_doc_pos (h.words _ hmem) depth _) ?_⟩
    rw [hedits, hclose]
    simp only [Remnant.removal, Removal.keepParens]
    rw [if_neg (by omega)]

open Chunk in
theorem AnyNode.exists_turns_left {unit : SourceUnit} {plan : Plan} {edits : NodeId → List Edit}
    {n : AnyNode} (h : plan.Edited unit edits n) {start depth : Nat} {ctx : Ctx}
    (hplaced : (n.node.doc .faithful depth ctx).PlacedAt unit start) :
    ∃ cs, Turns edits start (n.node.doc .faithful depth ctx) (n.node.leftText plan depth) cs := by
  induction n using AnyNode.print_induct generalizing start depth ctx with
  | step n ih =>
    rw [Node.doc_faithful_ctx _ depth ctx .plain] at hplaced ⊢
    have hsub : ∀ k ctx' m, .sub k ctx' m ∈ n.node.written .plain → ∀ start depth,
        (m.node.doc .faithful depth ctx').PlacedAt unit start →
        ∃ cs, Turns edits start (m.node.doc .faithful depth ctx') (m.node.leftText plan depth) cs :=
      fun k ctx' m hm start depth hp =>
        ih _ .plain k ctx' m hm (h.of_mem (Node.mem_nodes_of_piece hm m.self_mem_nodes)) hp
    cases hr : n.node.remnant? plan with
    | none =>
      have hrow : (Piece.row depth (n.node.written .plain)).PlacedAt unit start := by
        rw [Node.doc_faithful] at hplaced
        exact hplaced.of_mark
      obtain ⟨cs, hcs⟩ := exists_turns_row hsub hrow
      refine ⟨cs, hcs.proper, ?_, ?_, ?_⟩
      · rw [Node.doc_faithful, Node.toString_mark]
        exact hcs.whole
      · rw [hcs.kept, Node.leftText_of_stays hr]
      · rw [Node.flatMap_parenPairs ?_]
        · exact hcs.edits
        intro hcall
        refine h.stays n n.self_mem_nodes ?_
        -- A call that goes has one argument, so it would leave a remnant.
        cases hplan : plan n.id with
        | none => rfl
        | some r =>
          obtain ⟨id, callee, arg, rfl, -⟩ := h.goes n n.self_mem_nodes r hplan
          rw [Node.remnant?] at hr
          exact absurd (hr.symm.trans hplan) (by simp)
    | some r =>
      obtain ⟨id, callee, arg, spread, heq, hid⟩ := Node.exists_of_remnant? hr
      obtain ⟨n⟩ := n
      cases heq
      refine Node.exists_turns_conversion h hid hplaced fun start hp => ?_
      exact hsub 0 .plain ⟨arg⟩ (Node.arg_mem_written ..) start depth hp

open Chunk in
theorem AnyNode.exists_turns {unit : SourceUnit} {plan : Plan} {edits : NodeId → List Edit}
    {n : AnyNode} (h : plan.Realized unit edits n) {start depth : Nat} {ctx : Ctx}
    (hplaced : (n.node.doc .faithful depth ctx).PlacedAt unit start) :
    ∃ cs, Turns edits start (n.node.doc .faithful depth ctx)
      ((n.node.prune plan).doc .faithful depth ctx).toString cs := by
  rw [toString_prune h.methods]
  exact exists_turns_left h.toEdited hplaced

/-! ## A file -/

section

variable {unit : SourceUnit} {options : DetectOptions} {found : Findings}

theorem conversion_eq_of_removal (hprinted : unit.Printed) (hids : DistinctIds ⟨unit.file⟩)
    {c d : Conversion} (hc : c ∈ unit.conversions options) (hd : d ∈ unit.conversions options)
    {k l : Detect.Cut} (hk : unit.cut options c = .ok k) (hl : unit.cut options d = .ok l)
    (h : k.removal = l.removal) : c = d := by
  obtain ⟨⟨_, p, _, -, hp, -, hkr⟩, -⟩ := Detect.cut_cases hk
  obtain ⟨⟨_, q, _, -, hq, -, hlr⟩, -⟩ := Detect.cut_cases hl
  have hlparen := congrArg Removal.lparen h
  rw [hkr, hlr, Remnant.lparen_removal, Remnant.lparen_removal] at hlparen
  exact conversion_eq_of_id hids hc hd (hprinted.eq_of_lparen_eq hp hq hlparen)

/-- The edits that a set of removals has for one conversion. -/
def SourceUnit.editsOf (unit : SourceUnit) (options : DetectOptions) (removals : RemovalSet)
    (id : NodeId) : List Edit :=
  (unit.cutIn options removals id).toList.flatMap (·.removal.edits)

theorem edits_perm_editsOf (hprinted : unit.Printed) (hids : DistinctIds ⟨unit.file⟩)
    (h : detect unit options = .ok found) {removals : RemovalSet}
    (hsub : ∀ r ∈ removals.toList, r ∈ found.removals.toList) :
    removals.edits.Perm ((unit.file.layoutDoc.parenPairs 0).flatMap fun p =>
      unit.editsOf options removals p.1) := by
  have hkeys : ((unit.file.layoutDoc.parenPairs 0).map (·.1)).Nodup :=
    Doc.collects_parenPairs.nodup hids 0 0 .plain
  -- Both lists are without repetition: different printed calls have different removals.
  have hperm : removals.toList.Perm (((unit.file.layoutDoc.parenPairs 0).map (·.1)).filterMap
      fun id => (unit.cutIn options removals id).map (·.removal)) := by
    rw [List.perm_ext_iff_of_nodup removals.nodup_toList]
    · intro r
      simp only [List.mem_filterMap, Option.map_eq_some_iff]
      constructor
      · intro hr
        obtain ⟨c, hc, k, hk, rfl⟩ := (mem_removals_iff h).mp (hsub r hr)
        obtain ⟨⟨_, p, _, -, hp, -, -⟩, -⟩ := Detect.cut_cases hk
        have hmem := List.mem_map_of_mem (f := Prod.fst) (hprinted.mem_parenPairs hp)
        exact ⟨c.id, hmem, k, (cutIn_eq_some_iff hids).mpr ⟨c, hc, rfl, hk, hr⟩, rfl⟩
      · rintro ⟨id, -, k, hk, rfl⟩
        obtain ⟨c, -, -, -, hmem⟩ := (cutIn_eq_some_iff hids).mp hk
        exact hmem
    · refine hkeys.filterMap ?_
      intro i j r hi hj
      obtain ⟨k, hk, rfl⟩ := Option.map_eq_some_iff.mp hi
      obtain ⟨l, hl, hkl⟩ := Option.map_eq_some_iff.mp hj
      obtain ⟨c, hc, rfl, hk, -⟩ := (cutIn_eq_some_iff hids).mp hk
      obtain ⟨d, hd, rfl, hl, -⟩ := (cutIn_eq_some_iff hids).mp hl
      rw [conversion_eq_of_removal hprinted hids hc hd hk hl hkl.symm]
  refine (hperm.flatMap_right _).trans (.of_eq ?_)
  rw [List.filterMap_eq_flatMap_toList, List.flatMap_assoc, List.flatMap_map]
  apply List.flatMap_congr
  intro p _
  unfold SourceUnit.editsOf
  cases unit.cutIn options removals p.1 <;> rfl

theorem edited_plan (hids : DistinctIds ⟨unit.file⟩) (hwords : HasWords ⟨unit.file⟩)
    {removals : RemovalSet} (hcallees : unit.file.CalleesStay (unit.plan options removals)) :
    (unit.plan options removals).Edited unit (unit.editsOf options removals) ⟨unit.file⟩ where
  callees := hcallees
  words := hwords
  goes x hx r hr := by
    obtain ⟨k, hk, rfl⟩ := Option.map_eq_some_iff.mp hr
    obtain ⟨c, hc, hid, hcut, -⟩ := (cutIn_eq_some_iff hids).mp hk
    obtain rfl := hids.eq_of_id hx (mem_nodes_of_visit (visit_of_conversion hids hc)) hid.symm
    obtain ⟨⟨span, parens, argSpan, hspan, hparens, hargSpan, hremoval⟩, -⟩ := Detect.cut_cases hcut
    refine ⟨c.id, c.callee, c.arg, rfl, span, parens, argSpan, hspan, hparens, hargSpan, ?_⟩
    change unit.cutIn options removals c.id = some k at hk
    rw [SourceUnit.editsOf, hk, ← hremoval]
    simp
  stays x _ hnone := by
    have hcut : unit.cutIn options removals x.id = none := Option.map_eq_none_iff.mp hnone
    rw [SourceUnit.editsOf, hcut]
    rfl

theorem realized_plan (hids : DistinctIds ⟨unit.file⟩) (hwords : HasWords ⟨unit.file⟩)
    {removals : RemovalSet} (hcallees : unit.file.CalleesStay (unit.plan options removals))
    (hmethods : ∀ x ∈ AnyNode.nodes ⟨unit.file⟩,
      x.node.MethodTypesStay (unit.plan options removals)) :
    (unit.plan options removals).Realized unit (unit.editsOf options removals) ⟨unit.file⟩ :=
  { edited_plan hids hwords hcallees with methods := hmethods }

/-- Deleting the edits of any part of the removals leaves the text that stays. No conversion that goes
may lie in the callee of another one. -/
theorem apply_eq_leftText (hprinted : unit.Printed) (hids : DistinctIds ⟨unit.file⟩)
    (hwords : HasWords ⟨unit.file⟩) (h : detect unit options = .ok found) {removals : RemovalSet}
    (hsub : ∀ r ∈ removals.toList, r ∈ found.removals.toList)
    (hcallees : unit.file.CalleesStay (unit.plan options removals)) :
    Deletion.apply unit.source removals.edits =
      .ok (unit.file.leftText (unit.plan options removals) 0) := by
  obtain ⟨cs, hcs⟩ := exists_turns_left (edited_plan hids hwords hcallees) (hprinted.placedAt hids)
  have happly := Chunk.apply_edits hcs.proper
    ((edits_perm_editsOf hprinted hids h hsub).trans hcs.edits.symm)
  rw [hcs.whole, hcs.kept] at happly
  rw [hprinted.source]
  exact happly

/-- Every redundant conversion has a removal of its own, and deleting the edits of any part of the
removals prints the tree without these conversions. No conversion that goes may lie in the callee
of another one, and none may be all that keeps a signature from being the type of a method. -/
theorem deletion_prints_pruned_tree (hprinted : unit.Printed) (hids : DistinctIds ⟨unit.file⟩)
    (hwords : HasWords ⟨unit.file⟩) (h : detect unit options = .ok found) :
    (∀ c ∈ unit.conversions options,
      ∃ k, unit.cut options c = .ok k ∧ k.removal ∈ found.removals.toList ∧
        ∀ d ∈ unit.conversions options, ∀ l, unit.cut options d = .ok l →
          k.removal = l.removal → c = d) ∧
    ∀ removals : RemovalSet, (∀ r ∈ removals.toList, r ∈ found.removals.toList) →
      unit.file.CalleesStay (unit.plan options removals) →
      (∀ x ∈ AnyNode.nodes ⟨unit.file⟩, x.node.MethodTypesStay (unit.plan options removals)) →
      Deletion.apply unit.source removals.edits = .ok (unit.without options removals).layout.text := by
  constructor
  · intro c hc
    obtain ⟨k, hk⟩ := exists_cut h hc
    refine ⟨k, hk, (mem_removals_iff h).mpr ⟨c, hc, k, hk, rfl⟩, ?_⟩
    intro d hd l hl hkl
    exact conversion_eq_of_removal hprinted hids hc hd hk hl hkl
  · intro removals hsub hcallees hmethods
    obtain ⟨cs, hcs⟩ := AnyNode.exists_turns (realized_plan hids hwords hcallees hmethods)
      (hprinted.placedAt hids)
    have happly := Chunk.apply_edits hcs.proper
      ((edits_perm_editsOf hprinted hids h hsub).trans hcs.edits.symm)
    rw [hcs.whole, hcs.kept] at happly
    rw [hprinted.source]
    exact happly

end

def AnyNode.isInterfaceType : AnyNode → Bool
  | ⟨.interfaceType ..⟩ => true
  | _ => false

/-- Only the inner conversion of the chain goes, and its parentheses stay. -/
theorem negatedChain_prints_pruned_tree :
    ∃ found, detect negatedChain .default = .ok found ∧
      ⟨35, [⟨32, 35⟩]⟩ ∈ found.removals.toList ∧
      Deletion.apply negatedChain.source [⟨32, 35⟩] =
        .ok (negatedChain.without .default
          ⟨[⟨35, [⟨32, 35⟩]⟩], List.pairwise_singleton _ _⟩).layout.text := by
  obtain ⟨found, h, hfound⟩ := removals_negatedChain
  have hprinted : negatedChain.Printed := SourceUnit.printed_ofFile _ _ _
  have hids := distinctIds_negatedChain
  have hwords : HasWords ⟨negatedChain.file⟩ := hasWords_iff.mpr (by decide +kernel)
  have hall : negatedChain.file.CalleesStay (negatedChain.plan .default found.removals) := by
    rw [← pairwise_edits_iff hids (hprinted.consistent hids hwords) h, hfound]
    decide
  have hmethods : ∀ plan : Plan, ∀ x ∈ AnyNode.nodes ⟨negatedChain.file⟩,
      x.node.MethodTypesStay plan := by
    have hnone : (AnyNode.nodes ⟨negatedChain.file⟩).all (!·.isInterfaceType) = true := by decide +kernel
    rintro plan ⟨n⟩ hx
    cases n <;> try trivial
    exact absurd (List.all_eq_true.mp hnone _ hx) (by simp [AnyNode.isInterfaceType])
  refine ⟨found, h, by simp [hfound], ?_⟩
  exact (deletion_prints_pruned_tree hprinted hids hwords h).2 ⟨[⟨35, [⟨32, 35⟩]⟩], _⟩
    (by simp [hfound]) (calleesStay_of_all hids h hall _) (hmethods _)

/-- `type I interface{ m T(func()) }`: the type of a method is a converted signature. -/
def convertedSignature : SourceUnit := .ofFile ⟨"p/f.go"⟩
  (.file 100 ⟨101, "p"⟩ [.gen 1 .type [.typeSpec 2 ⟨3, "I"⟩ false (.interfaceType 4
    [.field 5 [⟨6, "m"⟩] (.call 7 (.ident 8 "T") [.funcType 9 [] []] false)])] false])
  ⟨.ofList [(8, ⟨.type, .named ⟨1, some "p", "T", none⟩⟩), (9, ⟨.type, .named ⟨1, some "p", "T", none⟩⟩)],
    .empty⟩

/-- The signature that is left is written with `func`, but a method is printed without it. -/
theorem convertedSignature_text_differs :
    convertedSignature.Printed ∧ DistinctIds ⟨convertedSignature.file⟩ ∧
      HasWords ⟨convertedSignature.file⟩ ∧
      ∃ found, detect convertedSignature .default = .ok found ∧
        convertedSignature.file.CalleesStay (convertedSignature.plan .default found.removals) ∧
        Deletion.apply convertedSignature.source found.removals.edits =
          .ok "package p\n\ntype I interface\x7b m func() \x7d\n" ∧
        (convertedSignature.without .default found.removals).layout.text =
          "package p\n\ntype I interface\x7b m() \x7d\n" := by
  obtain ⟨found, h, hfound⟩ : ∃ found, detect convertedSignature .default = .ok found ∧
      found.removals = ⟨[⟨32, [⟨31, 33⟩, ⟨39, 40⟩]⟩], List.pairwise_singleton _ _⟩ :=
    exists_found _ (by decide +kernel)
  have hprinted : convertedSignature.Printed := SourceUnit.printed_ofFile _ _ _
  have hids : DistinctIds ⟨convertedSignature.file⟩ := by decide +kernel
  have hwords : HasWords ⟨convertedSignature.file⟩ := hasWords_iff.mpr (by decide +kernel)
  refine ⟨hprinted, hids, hwords, found, h, ?_, ?_, ?_⟩
  · rw [← pairwise_edits_iff hids (hprinted.consistent hids hwords) h, hfound]
    decide
  · rw [hfound]
    cbv
  · rw [hfound]
    decide +kernel

end ConvSweep
