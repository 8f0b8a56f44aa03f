import ConvSweep.Proofs.Chains
import ConvSweep.Proofs.Decisions
import ConvSweep.Proofs.Layout
import ConvSweep.Proofs.Verdict

/-! # The trials of chains

Detection tries a chain at its top. If detection succeeds, the top is printed, so the trial comes to a
verdict.
-/

namespace ConvSweep

open AnyNode Detect

/-! ## The top of a chain -/

/-- Whether the chain goes on from the conversion with the id `top` to the node around it. -/
def AnyNode.links (redundant : List NodeId) (top : NodeId) : AnyNode → Bool
  | ⟨.call outer _ (arg :: _) _⟩ => arg.id = top && redundant.contains outer
  | _ => false

theorem chainTop_cons (redundant : List NodeId) (top : NodeId) (p : AnyNode) (ps : List AnyNode) :
    chainTop redundant top (p :: ps) =
      if p.links redundant top then chainTop redundant p.id ps else (top, p :: ps) := by
  obtain ⟨p⟩ := p
  cases p
  case call outer callee args spread =>
    cases args with
    | nil => rfl
    | cons arg args => rfl
  all_goals rfl

theorem exists_call_of_links {redundant : List NodeId} {top : NodeId} {p : AnyNode}
    (h : p.links redundant top = true) : ∃ outer callee arg args spread,
      p = ⟨.call outer callee (arg :: args) spread⟩ ∧ arg.id = top ∧ outer ∈ redundant := by
  obtain ⟨p⟩ := p
  cases p
  case call outer callee args spread =>
    cases args with
    | nil => cases h
    | cons arg args =>
      simp only [AnyNode.links, Bool.and_eq_true, decide_eq_true_eq, List.contains_iff_mem] at h
      exact ⟨outer, callee, arg, args, spread, rfl, h⟩
  all_goals cases h

theorem call_of_redundant {file : File} {info : TypeInfo} {options : DetectOptions}
    (hids : DistinctIds ⟨file⟩) {x : AnyNode} (hx : x ∈ AnyNode.nodes ⟨file⟩)
    (hid : x.id ∈ (scan file info options).redundant) :
    ∃ id callee arg, x = ⟨.call id callee [arg] false⟩ := by
  obtain ⟨callee, arg, ancestors, hv⟩ := exists_visit_of_redundant hid
  exact ⟨x.id, callee, arg, hids.eq_of_id hx (mem_nodes_of_visit hv) rfl⟩

/-! ## Headers around chains -/

theorem headerAround_cons {e x : Expr} (hx : ⟨x⟩ ∈ AnyNode.children ⟨e⟩) (ancestors : List AnyNode) :
    headerAround (⟨e⟩ :: ancestors) = headerAround ancestors := by
  cases e
  case funcLit => simp [AnyNode.children, Node.children] at hx
  all_goals rfl

/-- The header of a statement may reach the node. -/
def AnyNode.InHeader (n x : AnyNode) : Prop :=
  ∃ ancestors stmt, ⟨x, ancestors⟩ ∈ n.visits [] ∧ headerAround ancestors = some stmt

theorem AnyNode.InHeader.child {n : AnyNode} {e x : Expr} (h : InHeader n ⟨e⟩)
    (hx : ⟨x⟩ ∈ AnyNode.children ⟨e⟩) : InHeader n ⟨x⟩ := by
  obtain ⟨ancestors, stmt, hv, hstmt⟩ := h
  exact ⟨_, stmt, visit_child hv hx, (headerAround_cons hx ancestors).trans hstmt⟩

theorem AnyNode.inHeader_of_isSome {n x : AnyNode} {ancestors : List AnyNode}
    (hv : ⟨x, ancestors⟩ ∈ n.visits []) (h : (headerAround ancestors).isSome = true) :
    InHeader n x := by
  obtain ⟨stmt, hstmt⟩ := Option.isSome_iff_exists.mp h
  exact ⟨ancestors, stmt, hv, hstmt⟩

theorem AnyNode.not_inHeader_of_all {n x : AnyNode}
    (h : (n.visits []).all (fun v => v.node.id ≠ x.id || (headerAround v.ancestors).isNone) = true) :
    ¬ InHeader n x := by
  rintro ⟨ancestors, stmt, hv, hstmt⟩
  have := List.all_eq_true.mp h _ hv
  simp [hstmt] at this

theorem headerAround_visit {n x stmt : AnyNode} {as above : List AnyNode}
    (hv : ⟨x, above⟩ ∈ n.visits as) (h : headerAround above = some stmt) :
    stmt ∈ n.nodes ∨ headerAround as = some stmt := by
  induction n using AnyNode.induct generalizing as with
  | step n ih =>
    rw [visits_eq, List.mem_cons, List.mem_flatMap] at hv
    rcases hv with heq | ⟨m, hm, hv⟩
    · cases heq
      exact Or.inr h
    · rcases ih m hm hv with hmem | haround
      · exact Or.inl (mem_nodes_of_child hm hmem)
      · rw [headerAround] at haround
        split at haround
        · cases haround
          exact Or.inl (self_mem_nodes _)
        · split at haround
          · cases haround
          · exact Or.inr haround

theorem inHeader_of_paren {n : AnyNode} (hids : n.DistinctIds) {t : Expr} {parent : AnyNode}
    {rest : List AnyNode} (hv : ⟨⟨t⟩, parent :: rest⟩ ∈ n.visits []) {id : NodeId} {x : Expr}
    (hroot : ParensTrial.surroundings parent (parent :: rest) ∈ n.nodes)
    (hx : ⟨.paren id x⟩ ∈ (ParensTrial.surroundings parent (parent :: rest)).nodes)
    (ht : ⟨t⟩ ∈ AnyNode.nodes ⟨x⟩) : x = t ∨ InHeader n ⟨x⟩ := by
  rw [surroundings_eq] at hroot hx
  have hchild := paren_mem_children id x
  cases haround : headerAround (parent :: rest) with
  | some stmt =>
    rw [haround, Option.getD_some] at hroot hx
    right
    have hmem := mem_nodes_trans hroot (mem_nodes_trans hx (child_mem_nodes hchild))
    obtain ⟨above, hvx⟩ := exists_visit [] hmem
    obtain ⟨above', hvt⟩ := exists_visit above ht
    cases hids.visit_eq hv (mem_visits_trans hvx hvt) rfl
    refine ⟨above, stmt, hvx, (headerAround_visit hvt haround).resolve_left fun hin => ?_⟩
    exact not_mem_nodes_child hchild (mem_nodes_trans hin hx)
  | none =>
    rw [haround, Option.getD_none] at hroot hx
    left
    rcases visit_cases hv with ⟨-, hnil⟩ | ⟨p, ps, heq, hp, hparent⟩
    · cases hnil
    cases heq
    by_cases heq : (⟨.paren id x⟩ : AnyNode) = parent
    · subst heq
      symm
      simpa [AnyNode.children, Node.children] using hparent
    · have htp := mem_nodes_of_child hchild ht
      have hin := (hids.of_mem hroot).mem_child hparent hx heq (self_mem_nodes _) htp
      exact (not_mem_nodes_child hchild (mem_nodes_trans ht hin)).elim

theorem headerAround_of_chainTop {redundant : List NodeId} {id top : NodeId}
    {ancestors above : List AnyNode} (h : chainTop redundant id ancestors = (top, above)) :
    headerAround above = headerAround ancestors := by
  induction ancestors generalizing id with
  | nil =>
    obtain ⟨-, rfl⟩ := Prod.mk.inj h
    rfl
  | cons p ps ih =>
    rw [chainTop_cons] at h
    split at h
    · rename_i hlink
      obtain ⟨outer, callee, arg, args, spread, rfl, -, -⟩ := exists_call_of_links hlink
      exact ih h
    · obtain ⟨-, rfl⟩ := Prod.mk.inj h
      rfl

/-! ## Conversions that are printed -/

theorem Shows.of_span {n x : AnyNode} (hids : n.DistinctIds) (hx : x ∈ n.nodes) {depth start : Nat}
    {ctx : Ctx} {s : Span} (hs : (x.id, s) ∈ (n.node.doc .faithful depth ctx).spans start) :
    ∃ ctx', Shows n ctx x ctx' := by
  induction n using AnyNode.print_induct generalizing depth start ctx with
  | step n ih =>
    by_cases hne : x = n
    · subst hne
      exact ⟨ctx, .self _ _⟩
    · obtain ⟨k, ctx₁, m, o, hm, hsm⟩ :=
        Piece.exists_of_mem_spans_row (mem_spans_row_of_ne hids hx hne hs)
      have hmem : m ∈ n.nodes := Node.mem_nodes_of_piece hm m.self_mem_nodes
      have hxm := hids.mem_of_id hmem hx (id_mem_of_span hsm)
      obtain ⟨ctx', hshow⟩ := ih _ ctx k ctx₁ m hm (hids.of_mem hmem) hxm hsm
      exact ⟨ctx', .piece hm hshow⟩

section

variable {unit : SourceUnit} {options : DetectOptions} {found : Findings}

theorem shows_of_redundant (hprinted : unit.Printed) (hids : DistinctIds ⟨unit.file⟩)
    (h : detect unit options = .ok found) {x : AnyNode} (hx : x ∈ AnyNode.nodes ⟨unit.file⟩)
    (hid : x.id ∈ unit.redundant options) : ∃ ctx, Shows ⟨unit.file⟩ .plain x ctx := by
  obtain ⟨callee, arg, ancestors, hv⟩ := exists_visit_of_redundant hid
  obtain ⟨k, hk⟩ := exists_cut h (conversion_of_visit hv hid)
  obtain ⟨⟨span, -, -, hspan, -⟩, -⟩ := cut_cases hk
  exact Shows.of_span hids hx (hprinted.mem_spans hspan)

theorem exists_top {x : Expr} {ancestors : List AnyNode}
    (hv : ⟨⟨x⟩, ancestors⟩ ∈ AnyNode.visits ⟨unit.file⟩ []) (hx : x.id ∈ unit.redundant options) :
    ∃ (t : Expr) (above : List AnyNode), ⟨⟨t⟩, above⟩ ∈ AnyNode.visits ⟨unit.file⟩ [] ∧
      t.id ∈ unit.redundant options ∧
      chainTop (unit.redundant options) x.id ancestors = (t.id, above) := by
  induction ancestors generalizing x with
  | nil => exact ⟨x, [], hv, hx, rfl⟩
  | cons p ps ih =>
    rw [chainTop_cons]
    by_cases hlink : p.links (unit.redundant options) x.id = true
    · obtain ⟨outer, callee, arg, args, spread, rfl, -, hout⟩ := exists_call_of_links hlink
      rcases visit_cases hv with ⟨-, hnil⟩ | ⟨q, qs, heq, hq, -⟩
      · cases hnil
      cases heq
      rw [if_pos hlink]
      exact ih hq hout
    · rw [if_neg hlink]
      exact ⟨x, p :: ps, hv, hx, rfl⟩

theorem verdict_of_redundant (hprinted : unit.Printed) (hids : DistinctIds ⟨unit.file⟩)
    (h : detect unit options = .ok found) {t : Expr} {above : List AnyNode}
    (hv : ⟨⟨t⟩, above⟩ ∈ AnyNode.visits ⟨unit.file⟩ []) (ht : t.id ∈ unit.redundant options)
    (f : Face) :
    ∃ parent rest b, above = parent :: rest ∧
      ParensTrial.surroundings parent above ∈ AnyNode.nodes ⟨unit.file⟩ ∧
      ⟨t⟩ ∈ (ParensTrial.surroundings parent above).nodes ∧
      Verdict t.id f (ParensTrial.surroundings parent above) .plain b := by
  obtain ⟨ctx, hshow⟩ := shows_of_redundant hprinted hids h (mem_nodes_of_visit hv) ht
  obtain ⟨parent, rest, heq, hmem, haround⟩ := hshow.surroundings hids hv
  have hplain : Ctx.plain.minPrec ≤ primaryPrec := Nat.zero_le _
  obtain ⟨b, hb⟩ := haround.exists_verdict (hids.of_mem hmem) f hplain
  exact ⟨parent, rest, b, heq, hmem, haround.mem_nodes, hb⟩

theorem plan_of_cut (hids : DistinctIds ⟨unit.file⟩) (h : detect unit options = .ok found)
    {c : Conversion} (hc : c ∈ unit.conversions options) {k : Cut} (hk : unit.cut options c = .ok k) :
    unit.plan options found.removals c.id = some k.remnant :=
  (plan_eq_some_iff hids).mpr
    ⟨c, hc, rfl, k, hk, (mem_removals_iff h).mpr ⟨c, hc, k, hk, rfl⟩, rfl⟩

theorem Detect.Cut.remnant_eq {k : Cut} {trial : ParensTrial} (h : k.trial = some trial) :
    k.remnant = if trial.required then .wrapped else .bare := by
  simp [Cut.remnant, h]

theorem Verdict.congr_surroundings {file : File} (hids : DistinctIds ⟨file⟩) {t : Expr}
    {parent : AnyNode} {rest : List AnyNode}
    (hv : ⟨⟨t⟩, parent :: rest⟩ ∈ AnyNode.visits ⟨file⟩ []) {f g : Face} {b : Bool}
    (hseen : f.seen (headerAround (parent :: rest)).isSome =
      g.seen (headerAround (parent :: rest)).isSome)
    (h : Verdict t.id f (ParensTrial.surroundings parent (parent :: rest)) .plain b) :
    Verdict t.id g (ParensTrial.surroundings parent (parent :: rest)) .plain b := by
  rw [surroundings_eq] at h ⊢
  cases haround : headerAround (parent :: rest) with
  | some stmt =>
    rw [haround, Option.isSome_some, Face.seen_true, Face.seen_true] at hseen
    rw [haround, hseen] at h
    exact h
  | none =>
    rw [haround] at h hseen
    rcases visit_cases hv with ⟨-, hnil⟩ | ⟨p, ps, heq, hp, hchild⟩
    · cases hnil
    cases heq
    have hheader : parent.hasHeader = false := by
      cases hhead : parent.hasHeader with
      | false => rfl
      | true => simp [headerAround, hhead] at haround
    exact h.congr_child (hids.of_mem (mem_nodes_of_visit hp)) hchild hheader hseen

theorem remnant_eq_bare (hprinted : unit.Printed) (hids : DistinctIds ⟨unit.file⟩)
    (htok : HasTokens ⟨unit.file⟩) (h : detect unit options = .ok found) {c : Conversion}
    (hc : c ∈ unit.conversions options)
    (hleft : goesAway (unit.redundant options) c.arg = true ∨
      (c.arg.face fun _ => none).seen (headerAround c.ancestors).isSome = .closed)
    {k : Cut} (hk : unit.cut options c = .ok k) : k.remnant = .bare := by
  obtain ⟨-, ⟨-, htrial⟩ | ⟨hstays, trial, hrun, htrial⟩⟩ := cut_cases hk
  · simp [Cut.remnant, htrial]
  · rw [hstays] at hleft
    have hclosed := hleft.resolve_left (by simp)
    have hv := visit_of_conversion hids hc
    obtain ⟨t, above, hvt, ht, htop⟩ := exists_top hv (redundant_of_conversion hc)
    change chainTop _ c.id c.ancestors = _ at htop
    rw [htop] at hrun
    rw [← headerAround_of_chainTop htop] at hclosed
    obtain ⟨parent, rest, b, rfl, hmem, -, hverdict⟩ :=
      verdict_of_redundant hprinted hids h hvt ht (c.arg.face fun _ => none)
    have harg := mem_nodes_trans (mem_nodes_of_visit hv) (child_mem_nodes (arg_mem_children ..))
    have hstep : InStep ⟨c.arg⟩ := inStep (htok.of_mem harg)
    have hreq := ParensTrial.required_eq hrun hverdict (hids.of_mem hmem) (htok.of_mem hmem) hstep
    have hseen : Face.closed.seen (headerAround (parent :: rest)).isSome = .closed := by
      cases (headerAround (parent :: rest)).isSome <;> rfl
    have hbare := hverdict.congr_surroundings hids hvt (hclosed.trans hseen.symm)
    rw [Cut.remnant_eq htrial, hreq, hbare.eq_false_of_closed (Nat.zero_le _)]
    rfl

end

end ConvSweep
