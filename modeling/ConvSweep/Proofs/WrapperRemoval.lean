import ConvSweep.Proofs.Header
import ConvSweep.Proofs.Precedence
import ConvSweep.Proofs.Rewriting
import ConvSweep.Proofs.Wrappers

/-! # Wrappers leave no trace

Detection takes every wrapper out, and all else as without it, so the text that is left does not tell
whether there were any.
-/

namespace ConvSweep

open AnyNode Detect

theorem AnyNode.HasTokens.hasWords {n : AnyNode} (h : n.HasTokens) : n.HasWords := by
  rintro x hx s hs rfl
  obtain ⟨d, l, hcons, -⟩ := (h x hx "" hs).cons_toList
  cases hcons

/-! ## Slots of primary expressions -/

theorem PrecedenceKept.opening_eq_none {file : File} (h : PrecedenceKept file) {e : Expr} {ctx : Ctx}
    (hshow : Shows ⟨file⟩ .plain ⟨e⟩ ctx) (hctx : primaryPrec ≤ ctx.minPrec) :
    (e.face fun _ => none).opening = none := by
  cases hparen : e.isParen with
  | true =>
    cases e <;> simp [Node.isParen] at hparen
    simp [Node.face, Face.closed]
  | false => exact h.opening_of_primary hshow (Nat.le_trans hctx (h e ctx hshow hparen))

theorem Plan.Unwraps.shows_prune {plan : Plan} {n x : AnyNode} {ctx ctx' : Ctx} (h : plan.Unwraps n)
    (hshow : Shows n ctx x ctx') (hcall : x.node.isCall = true) (ctx₁ : Ctx) :
    ∃ ctx₁', Shows (n.prune plan) ctx₁ (x.prune plan) ctx₁' := by
  induction hshow generalizing ctx₁ with
  | self n ctx => exact ⟨ctx₁, .self _ _⟩
  | @piece n m x ctx ctx₂ ctx' k hm hshow ih =>
    have hsub := ih (h.of_mem (Node.mem_nodes_of_piece hm m.self_mem_nodes)) hcall
    rcases h.stays_or_wrapper (n := n.node) with hr | ⟨id, w, name, arg, spread, hid, heq, hprune⟩
    · obtain ⟨ctx₂', hm'⟩ := Node.exists_slot_in hm ctx₁
      obtain ⟨ctx₁', hx⟩ := hsub ctx₂'
      have hleft : .sub k ctx₂' (m.prune plan) ∈ (n.prune plan).node.written ctx₁ := by
        rw [h.written_prune hr]
        exact List.mem_map.mpr ⟨_, hm', rfl⟩
      exact ⟨ctx₁', .piece hleft hx⟩
    · obtain ⟨n⟩ := n
      cases heq
      simp [Node.pieces] at hm
      rcases hm with ⟨-, -, rfl⟩ | ⟨-, -, rfl⟩
      · -- The name of a wrapper shows no call.
        have hx := hshow.mem_nodes
        simp [nodes_eq, AnyNode.children, Node.children] at hx
        subst hx
        cases hcall
      · rw [hprune]
        exact hsub ctx₁

/-! ## The two files -/

namespace Wrapping

variable {ws : List Wrapper} {info info' : TypeInfo} {plain wrapped : File} {options : DetectOptions}

theorem distinctIds_plain (h : Wrapping ws info plain info' wrapped) : DistinctIds ⟨plain⟩ :=
  h.prune_file ▸ h.unwraps.distinctIds h.ids

theorem exists_conversion (h : Wrapping ws info plain info' wrapped)
    (hcallees : PlainCallees info plain) {x : AnyNode} (hx : x ∈ AnyNode.nodes ⟨wrapped⟩)
    (hid : x.id ∈ (scan wrapped info' options).redundant) :
    ∃ c f a s target, x.prune (.dropping ws) = ⟨.call c f [a] s⟩ ∧
      x.prune (.dropping ws) ∈ AnyNode.nodes ⟨plain⟩ ∧
      info.typeOf f.id = some target ∧ target.isType = true := by
  by_cases hr : x.node.remnant? (.dropping ws) = none
  · have hid' := ((h.mem_redundant hcallees hx).mp hid).resolve_left (not_not.mpr hr)
    obtain ⟨id, callee, arg, rfl⟩ := h.exists_call_of_redundant hx hr (Or.inl hid)
    have hleft := h.call_mem_plain hx
    obtain ⟨ancestors, hv⟩ := exists_visit [] hleft
    rw [Node.prune_call hr] at hv
    obtain ⟨target, -, htarget, htype, -⟩ := (mem_redundant_iff h.distinctIds_plain hv).mp hid'
    exact ⟨id, _, _, _, target, congrArg AnyNode.mk (Node.prune_call hr), hleft, htarget, htype⟩
  · obtain ⟨r, hr'⟩ := Option.ne_none_iff_exists'.mp hr
    obtain ⟨id, callee, arg, spread, heq, -⟩ := Node.exists_of_remnant? hr'
    obtain ⟨x⟩ := x
    cases heq
    obtain ⟨w, -, target, -, hprune, hleft, htarget, htype⟩ := h.exists_left hx hr
    exact ⟨_, _, _, _, target, congrArg AnyNode.mk hprune, hleft, htarget, htype⟩

theorem not_mem_callee (h : Wrapping ws info plain info' wrapped) (hcallees : PlainCallees info plain)
    {id : NodeId} {callee arg : Expr} {spread : Bool} {target : TypeEntry}
    (hmem : ⟨.call id callee [arg] spread⟩ ∈ AnyNode.nodes ⟨plain⟩)
    (htarget : info.typeOf callee.id = some target) (htype : target.isType = true) {x : AnyNode}
    (hx : x ∈ AnyNode.nodes ⟨wrapped⟩) (hid : x.id ∈ (scan wrapped info' options).redundant) :
    (x.prune (.dropping ws)).id ∉ AnyNode.ids ⟨callee⟩ := by
  intro hin
  obtain ⟨y, hy, hyx⟩ := mem_ids_iff.mp hin
  obtain ⟨c, f, a, s, entry, hprune, hleft, hentry, hconv⟩ := h.exists_conversion hcallees hx hid
  have hcallee := mem_nodes_trans hmem (child_mem_nodes (callee_mem_children ..))
  obtain rfl := h.distinctIds_plain.eq_of_id (mem_nodes_trans hcallee hy) hleft hyx
  rw [hprune] at hy
  have hinside := (hcallees _ _ _ _ target hmem htarget htype).2 _ _ _ _ entry hy hentry
  rw [hconv] at hinside
  cases hinside

theorem face_callee (h : Wrapping ws info plain info' wrapped) (hcallees : PlainCallees info plain)
    {id : NodeId} {callee arg : Expr} {spread : Bool} {target : TypeEntry}
    (hmem : ⟨.call id callee [arg] spread⟩ ∈ AnyNode.nodes ⟨wrapped⟩)
    (hr : (Node.call id callee [arg] spread).remnant? (.dropping ws) = none)
    (htarget : info.typeOf (callee.prune (.dropping ws)).id = some target)
    (htype : target.isType = true) :
    ((callee.prune (.dropping ws)).face fun _ => none) = callee.face fun _ => none := by
  have hcallee : ⟨callee⟩ ∈ AnyNode.nodes ⟨wrapped⟩ :=
    mem_nodes_trans hmem (child_mem_nodes (callee_mem_children ..))
  have hleft := h.call_mem_plain hmem
  rw [Node.prune_call hr] at hleft
  have hu := h.unwraps.of_mem hcallee
  refine hu.seen_face_prune true (P := fun e => ⟨e⟩ ∈ AnyNode.nodes ⟨callee⟩) ?_ ?_ ?_
    (self_mem_nodes _)
  · exact fun e he _ x hx => mem_nodes_trans he (child_mem_nodes hx)
  · exact fun _ _ => rfl
  · intro e he hgoes _
    have hid : e.id ∈ (scan wrapped info' .default).redundant :=
      (h.mem_redundant hcallees (mem_nodes_trans hcallee he)).mpr (Or.inl hgoes)
    refine (h.not_mem_callee hcallees hleft htarget htype (mem_nodes_trans hcallee he) hid ?_).elim
    exact id_mem_ids (hu.mem_nodes_prune he (Node.isCall_of_goes hgoes))

end Wrapping

/-- Detection on a printed file, and on the same file with wrappers. -/
structure Comparison (ws : List Wrapper) (options : DetectOptions) (unit unit' : SourceUnit)
    (found found' : Findings) : Prop where
  wrapping : Wrapping ws unit.info unit.file unit'.info unit'.file
  tokens : HasTokens ⟨unit'.file⟩
  precedence : PrecedenceKept unit.file
  callees : PlainCallees unit.info unit.file
  unexposed : ∀ w ∈ ws, InHeader ⟨unit'.file⟩ ⟨w.innerExpr⟩ → w.innerExpr.exposes = false
  printed : unit.Printed
  printed' : unit'.Printed
  detected : detect unit options = .ok found
  detected' : detect unit' options = .ok found'

namespace Comparison

variable {ws : List Wrapper} {options : DetectOptions} {unit unit' : SourceUnit}
  {found found' : Findings}

theorem tokens_plain (h : Comparison ws options unit unit' found found') : HasTokens ⟨unit.file⟩ :=
  h.wrapping.prune_file ▸ h.wrapping.unwraps.hasTokens h.tokens

theorem mem_redundant (h : Comparison ws options unit unit' found found') {x : AnyNode}
    (hx : x ∈ AnyNode.nodes ⟨unit'.file⟩) :
    x.id ∈ unit'.redundant options ↔
      x.node.remnant? (.dropping ws) ≠ none ∨ x.id ∈ unit.redundant options :=
  h.wrapping.mem_redundant h.callees hx

/-! ### Trials -/

theorem inHeader_residue {n : AnyNode} {plan : Plan} {e : Expr} (h : InHeader n ⟨e⟩) :
    InHeader n ⟨e.residue plan⟩ := by
  induction e using Node.residue_induct plan with
  | stays e hr => rwa [Node.residue_eq_self hr]
  | goes id callee arg spread hid ih =>
    rw [Node.residue_call hid]
    exact ih (h.child (arg_mem_children ..))

theorem closed_left (h : Comparison ws options unit unit' found found') {e : Expr}
    (he : ⟨e⟩ ∈ AnyNode.nodes ⟨unit'.file⟩) (hgoes : e.remnant? (.dropping ws) ≠ none) :
    ∃ c f a s target, e.prune (.dropping ws) = .call c f [a] s ∧
      ⟨.call c f [a] s⟩ ∈ AnyNode.nodes ⟨unit.file⟩ ∧
      (unit.info.typeOf f.id = some target ∧ target.isType = true) ∧
      (f.face fun _ => none).opening = none ∧
      (InHeader ⟨unit'.file⟩ ⟨e⟩ → (f.face fun _ => none).exposesComposite = false) := by
  have hw := h.wrapping
  obtain ⟨w, hmem, target, hres, hprune, hleft, htarget, htype⟩ := hw.exists_left he hgoes
  refine ⟨_, _, _, _, target, hprune, hprune ▸ hleft, ⟨htarget, htype⟩, ?_, fun hheader => ?_⟩
  · have hid := (h.mem_redundant he).mpr (Or.inl hgoes)
    obtain ⟨ctx, hshow⟩ := shows_of_redundant h.printed' hw.ids h.detected' he hid
    obtain ⟨ctx', hshow'⟩ := hw.unwraps.shows_prune hshow (Node.isCall_of_goes hgoes) .plain
    rw [hw.prune_file, AnyNode.prune, hprune] at hshow'
    exact h.precedence.opening_eq_none (hshow'.trans (.of_piece List.mem_cons_self)) (Nat.le_refl _)
  · have hexposes := h.unexposed w hmem (hres ▸ inHeader_residue hheader)
    have hr : w.innerExpr.remnant? (.dropping ws) = none := hres ▸ Node.remnant?_residue _ e
    rw [hw.face_callee h.callees (hw.inner_mem hmem) hr htarget htype]
    rwa [Node.exposes, Wrapper.innerExpr, Node.face_call rfl] at hexposes

variable {inHeader : Bool}

theorem face_wrapper (h : Comparison ws options unit unit' found found') {e : Expr}
    (he : ⟨e⟩ ∈ AnyNode.nodes ⟨unit'.file⟩) (hgoes : e.remnant? (.dropping ws) ≠ none)
    (hheader : inHeader = true → InHeader ⟨unit'.file⟩ ⟨e⟩) :
    ((e.prune (.dropping ws)).face fun _ => none).seen inHeader = .closed ∧
      (e.face fun _ => none) = .closed := by
  obtain ⟨c, f, a, s, target, hprune, -, -, hopening, hexposes⟩ := h.closed_left he hgoes
  obtain ⟨w, -, rfl⟩ := h.wrapping.exists_wrapper he hgoes
  constructor
  · rw [hprune, Node.face_call rfl, hopening, Face.seen]
    cases inHeader with
    | false => rfl
    | true =>
      rw [hexposes (hheader rfl)]
      rfl
  · rw [Wrapper.expr, Node.face_call rfl]
    rfl

theorem face_prune (h : Comparison ws options unit unit' found found') {e : Expr}
    (he : ⟨e⟩ ∈ AnyNode.nodes ⟨unit'.file⟩)
    (hheader : inHeader = true → InHeader ⟨unit'.file⟩ ⟨e⟩) :
    ((e.prune (.dropping ws)).face fun _ => none).seen inHeader =
      (e.face fun _ => none).seen inHeader := by
  refine (h.wrapping.unwraps.of_mem he).seen_face_prune inHeader
    (P := fun e => ⟨e⟩ ∈ AnyNode.nodes ⟨unit'.file⟩ ∧
      (inHeader = true → InHeader ⟨unit'.file⟩ ⟨e⟩)) ?_ ?_ ?_ ⟨he, hheader⟩
  · rintro e ⟨he, hheader⟩ - x hx
    exact ⟨mem_nodes_trans he (child_mem_nodes hx), fun hin => (hheader hin).child hx⟩
  · exact fun _ _ => rfl
  · rintro e ⟨he, hheader⟩ hgoes -
    obtain ⟨hleft, hface⟩ := h.face_wrapper he hgoes hheader
    rw [hleft, hface]
    cases inHeader <;> rfl

theorem face_inner (h : Comparison ws options unit unit' found found') {w : Wrapper} (hw : w ∈ ws)
    (hheader : inHeader = true → InHeader ⟨unit'.file⟩ ⟨w.expr⟩) :
    (w.innerExpr.face fun _ => none).seen inHeader = .closed := by
  have hinner : inHeader = true → InHeader ⟨unit'.file⟩ ⟨w.innerExpr⟩ :=
    fun hin => (hheader hin).child (arg_mem_children ..)
  rw [← h.face_prune (h.wrapping.inner_mem hw) hinner, ← Wrapping.prune_expr hw]
  exact (h.face_wrapper (h.wrapping.mem w hw) (Wrapping.remnant?_expr hw) hheader).1

theorem targets (h : Comparison ws options unit unit' found found') {t : Expr} {parent : AnyNode}
    {rest : List AnyNode} (hv : ⟨⟨t⟩, parent :: rest⟩ ∈ AnyNode.visits ⟨unit'.file⟩ [])
    (hcall : t.isCall = true) (ht : t.id ∈ unit'.redundant options)
    (hparent : parent.node.remnant? (.dropping ws) = none)
    (hroot : ParensTrial.surroundings parent (parent :: rest) ∈ AnyNode.nodes ⟨unit'.file⟩)
    (hmem : ⟨t⟩ ∈ (ParensTrial.surroundings parent (parent :: rest)).nodes) :
    (Plan.dropping ws).Targets (fun e => InHeader ⟨unit'.file⟩ ⟨e⟩)
      (ParensTrial.surroundings parent (parent :: rest)) t where
  unwraps := h.wrapping.unwraps.of_mem hroot
  ids := h.wrapping.ids.of_mem hroot
  mem := hmem
  call := hcall
  outer := by
    intro id callee spread hq
    obtain ⟨qs, hvq⟩ := exists_visit [] (mem_nodes_trans hroot hq)
    have hvt := visit_child hvq (arg_mem_children id callee t spread)
    cases h.wrapping.ids.visit_eq hv hvt rfl
    exact hparent
  closed := by
    intro e he hgoes
    obtain ⟨c, f, a, s, target, hprune, hleft, ⟨htarget, htype⟩, hface⟩ :=
      h.closed_left (mem_nodes_trans hroot he) hgoes
    refine ⟨c, f, [a], s, hprune, hface.1, hface.2, ?_⟩
    exact h.wrapping.not_mem_callee h.callees hleft htarget htype (mem_nodes_of_visit hv) ht
  below _ _ hin hx := hin.child hx
  path _ _ hx htx := inHeader_of_paren h.wrapping.ids hv hroot hx htx

theorem required_eq (h : Comparison ws options unit unit' found found') {t : Expr}
    {above : List AnyNode} (hv : ⟨⟨t⟩, above⟩ ∈ AnyNode.visits ⟨unit'.file⟩ [])
    (hcall : t.isCall = true) (ht : t.id ∈ unit'.redundant options)
    (hparent : ∀ p ∈ above.head?, p.node.remnant? (.dropping ws) = none) {arg : Expr}
    (harg : ⟨arg⟩ ∈ AnyNode.nodes ⟨unit'.file⟩)
    (hheader : (headerAround above).isSome = true → InHeader ⟨unit'.file⟩ ⟨arg⟩)
    {trial trial' : ParensTrial}
    (hrun : ParensTrial.run (pruneAncestors (.dropping ws) above) (t.prune (.dropping ws)).id
      (arg.prune (.dropping ws)) = some trial)
    (hrun' : ParensTrial.run above t.id arg = some trial') : trial.required = trial'.required := by
  have hids := h.wrapping.ids
  obtain ⟨parent, rest, b, rfl, hmem, htmem, hverdict⟩ :=
    verdict_of_redundant h.printed' hids h.detected' hv ht (arg.face fun _ => none)
  have hr : parent.node.remnant? (.dropping ws) = none := hparent parent rfl
  have hcons : pruneAncestors (.dropping ws) (parent :: rest) =
      parent.prune (.dropping ws) :: pruneAncestors (.dropping ws) rest := by
    simp [pruneAncestors, hr]
  -- The trial prints the top of the chain. So its surroundings are that top, or lie around it.
  have hout : Outside (ParensTrial.surroundings parent (parent :: rest)) ⟨t⟩
      (ParensTrial.surroundings parent (parent :: rest)) := by
    refine ⟨self_mem_nodes _, ?_⟩
    by_cases hin : ParensTrial.surroundings parent (parent :: rest) ∈ AnyNode.nodes ⟨t⟩
    · exact Or.inl (nodes_antisymm hin htmem)
    · exact Or.inr hin
  have hleft := (h.targets hv hcall ht hr hmem htmem).verdict_prune hverdict hout
  have hu := h.wrapping.unwraps.of_mem hmem
  have hstep : InStep ⟨arg.prune (.dropping ws)⟩ :=
    inStep ((h.wrapping.unwraps.of_mem harg).hasTokens (h.tokens.of_mem harg))
  have hids' := hu.distinctIds (hids.of_mem hmem)
  have htok' := hu.hasTokens (h.tokens.of_mem hmem)
  have hvleft := h.wrapping.unwraps.mem_visits_prune hv hcall
  have hseen := (h.face_prune harg hheader).symm
  rw [← Option.isSome_map (f := (AnyNode.prune (.dropping ws))), ← headerAround_pruneAncestors] at hseen
  rw [h.wrapping.prune_file, Visit.prune] at hvleft
  rw [← surroundings_prune, hcons] at hleft hids' htok'
  rw [hcons] at hrun hvleft hseen
  have hleft' := hleft.congr_surroundings h.wrapping.distinctIds_plain hvleft hseen
  rw [ParensTrial.required_eq hrun hleft' hids' htok' hstep,
    ParensTrial.required_eq hrun' hverdict (hids.of_mem hmem) (h.tokens.of_mem hmem)
      (inStep (h.tokens.of_mem harg))]

/-! ### Plans -/

theorem goesAway_wrapper (h : Comparison ws options unit unit' found found') {e : Expr}
    (he : ⟨e⟩ ∈ AnyNode.nodes ⟨unit'.file⟩) (hgoes : e.remnant? (.dropping ws) ≠ none) :
    goesAway (unit'.redundant options) e = true := by
  have hid := (h.mem_redundant he).mpr (Or.inl hgoes)
  obtain ⟨id, callee, arg, spread, rfl, -⟩ := Node.exists_of_goes hgoes
  exact List.contains_iff_mem.mpr hid

theorem goesAway_prune (h : Comparison ws options unit unit' found found') {e : Expr}
    (he : ⟨e⟩ ∈ AnyNode.nodes ⟨unit'.file⟩) (hr : e.remnant? (.dropping ws) = none) :
    goesAway (unit.redundant options) (e.prune (.dropping ws)) =
      goesAway (unit'.redundant options) e := by
  have hmem := h.mem_redundant he
  cases e
  case call id callee args spread =>
    rw [Node.prune_call hr]
    have hiff : id ∈ unit'.redundant options ↔ id ∈ unit.redundant options :=
      hmem.trans (or_iff_right (not_not.mpr hr))
    rw [Bool.eq_iff_iff]
    simp only [goesAway, List.contains_iff_mem, hiff]
  all_goals simp only [Node.prune, goesAway]

theorem remnant_eq (h : Comparison ws options unit unit' found found') {id : NodeId}
    {callee arg : Expr} {ancestors : List AnyNode}
    (hv : ⟨⟨.call id callee [arg] false⟩, ancestors⟩ ∈ AnyNode.visits ⟨unit'.file⟩ [])
    (hr : (Node.call id callee [arg] false).remnant? (.dropping ws) = none)
    (hid : id ∈ unit'.redundant options) {k k' : Cut}
    (hc : ⟨id, callee.prune (.dropping ws), arg.prune (.dropping ws),
      pruneAncestors (.dropping ws) ancestors⟩ ∈ unit.conversions options)
    (hk : unit.cut options ⟨id, callee.prune (.dropping ws), arg.prune (.dropping ws),
      pruneAncestors (.dropping ws) ancestors⟩ = .ok k)
    (hk' : unit'.cut options ⟨id, callee, arg, ancestors⟩ = .ok k') : k.remnant = k'.remnant := by
  have hids := h.wrapping.ids
  have harg : ⟨arg⟩ ∈ AnyNode.nodes ⟨unit'.file⟩ :=
    mem_nodes_trans (mem_nodes_of_visit hv) (child_mem_nodes (arg_mem_children ..))
  have hheader : (headerAround ancestors).isSome = true → InHeader ⟨unit'.file⟩ ⟨arg⟩ :=
    fun hsome => (inHeader_of_isSome hv hsome).child (arg_mem_children ..)
  by_cases hra : arg.remnant? (.dropping ws) = none
  · have hgoes := h.goesAway_prune harg hra
    obtain ⟨-, hcase⟩ := cut_cases hk
    obtain ⟨-, ⟨hgoes', htrial'⟩ | ⟨hgoes', trial', hrun', htrial'⟩⟩ := cut_cases hk'
    · obtain ⟨-, htrial⟩ := hcase.resolve_right fun hstays => by simp [hgoes, hgoes'] at hstays
      simp [Cut.remnant, htrial, htrial']
    · obtain ⟨-, trial, hrun, htrial⟩ := hcase.resolve_left fun hgo => by simp [hgoes, hgoes'] at hgo
      obtain ⟨t, above, hvt, hcall, ht, hparent, htop', htop⟩ :=
        h.wrapping.exists_chainTop h.callees hv rfl hid
      rw [Node.id_prune hr] at htop
      change chainTop (unit.redundant options) id _ = _ at htop
      change chainTop (unit'.redundant options) id _ = _ at htop'
      rw [htop] at hrun
      rw [htop'] at hrun'
      rw [Cut.remnant_eq htrial, Cut.remnant_eq htrial',
        h.required_eq hvt hcall ht hparent harg (headerAround_of_chainTop htop' ▸ hheader) hrun hrun']
  · -- The wrapper supplies no parentheses, and what it leaves needs none.
    have hheader' : (headerAround (pruneAncestors (.dropping ws) ancestors)).isSome = true →
        InHeader ⟨unit'.file⟩ ⟨arg⟩ := by
      rwa [headerAround_pruneAncestors, Option.isSome_map]
    have hbare := remnant_eq_bare h.printed h.wrapping.distinctIds_plain h.tokens_plain h.detected hc
      (Or.inr (h.face_wrapper harg hra hheader').1) hk
    have hbare' := remnant_eq_bare h.printed' hids h.tokens h.detected' (conversion_of_visit hv hid)
      (Or.inl (h.goesAway_wrapper harg hra)) hk'
    rw [hbare, hbare']

theorem plan_wrapper (h : Comparison ws options unit unit' found found') {w : Wrapper} (hw : w ∈ ws) :
    unit'.plan options found'.removals w.call = some .bare := by
  have hids := h.wrapping.ids
  obtain ⟨ancestors, hv⟩ := exists_visit [] (h.wrapping.mem w hw)
  have hid : w.call ∈ unit'.redundant options := h.wrapping.wrapper_redundant h.callees hw
  have hc := conversion_of_visit hv hid
  obtain ⟨k, hk⟩ := exists_cut h.detected' hc
  have hbare := remnant_eq_bare h.printed' hids h.tokens h.detected' hc
    (Or.inr (h.face_inner hw (inHeader_of_isSome hv))) hk
  exact hbare ▸ plan_of_cut hids h.detected' hc hk

theorem plan_eq (h : Comparison ws options unit unit' found found') {id : NodeId} {callee arg : Expr}
    {spread : Bool} (hmem : ⟨.call id callee [arg] spread⟩ ∈ AnyNode.nodes ⟨unit'.file⟩)
    (hr : (Node.call id callee [arg] spread).remnant? (.dropping ws) = none) :
    unit.plan options found.removals id = unit'.plan options found'.removals id := by
  have hids := h.wrapping.ids
  have hids' := h.wrapping.distinctIds_plain
  have hiff : id ∈ unit'.redundant options ↔ id ∈ unit.redundant options :=
    (h.mem_redundant hmem).trans (or_iff_right (not_not.mpr hr))
  by_cases hid : id ∈ unit'.redundant options
  · obtain ⟨ancestors, hv⟩ := exists_visit [] hmem
    obtain rfl := spread_eq_false hids hv hid
    have hvisit := h.wrapping.unwraps.mem_visits_prune hv rfl
    rw [h.wrapping.prune_file] at hvisit
    simp only [Visit.prune, AnyNode.prune] at hvisit
    rw [Node.prune_call hr] at hvisit
    have hc := conversion_of_visit hvisit (hiff.mp hid)
    have hc' := conversion_of_visit hv hid
    obtain ⟨k, hk⟩ := exists_cut h.detected hc
    obtain ⟨k', hk'⟩ := exists_cut h.detected' hc'
    rw [plan_of_cut hids' h.detected hc hk, plan_of_cut hids h.detected' hc' hk',
      h.remnant_eq hv hr hid hc hk hk']
  · have hnone := (not_iff_not.mpr (plan_ne_none_iff_mem hids' h.detected)).mpr (hid ∘ hiff.mpr)
    have hnone' := (not_iff_not.mpr (plan_ne_none_iff_mem hids h.detected')).mpr hid
    rw [not_not.mp hnone, not_not.mp hnone']

/-! ### Texts -/

theorem calleesStay_wrapped (h : Comparison ws options unit unit' found found') :
    unit'.file.CalleesStay (unit'.plan options found'.removals) := by
  have hids := h.wrapping.ids
  intro id callee arg spread hmem hid x hx
  by_contra hgoes
  have hxid := mem_redundant_of_plan hids hgoes
  have hxmem := mem_nodes_trans hmem (mem_nodes_of_child (callee_mem_children ..) hx)
  have hcall : x.node.isCall = true := by
    obtain ⟨c, f, a, rfl⟩ := call_of_redundant hids hxmem hxid
    rfl
  by_cases hr : (Node.call id callee [arg] spread).remnant? (.dropping ws) = none
  · obtain ⟨c, f, a, s, target, hprune, hleft, htarget, htype⟩ :=
      h.wrapping.exists_conversion h.callees hmem (mem_redundant_of_plan hids hid)
    have hcallee : callee.prune (.dropping ws) = f := by
      rw [AnyNode.prune, Node.prune_call hr] at hprune
      cases hprune
      rfl
    have hmemc := mem_nodes_trans hmem (child_mem_nodes (callee_mem_children ..))
    have hin := (h.wrapping.unwraps.of_mem hmemc).mem_nodes_prune hx hcall
    rw [hprune] at hleft
    refine h.wrapping.not_mem_callee h.callees hleft htarget htype hxmem hxid ?_
    rw [← hcallee]
    exact id_mem_ids hin
  · -- The callee of a wrapper is a name.
    obtain ⟨w, -, heq⟩ := h.wrapping.exists_wrapper hmem hr
    cases heq
    simp [nodes_eq, AnyNode.children, Node.children] at hx
    subst hx
    cases hcall

theorem leftText_prune (h : Comparison ws options unit unit' found found') {n : AnyNode}
    (hn : n ∈ AnyNode.nodes ⟨unit'.file⟩) (depth : Nat) :
    (n.prune (.dropping ws)).node.leftText (unit.plan options found.removals) depth =
      n.node.leftText (unit'.plan options found'.removals) depth := by
  induction n using AnyNode.print_induct generalizing depth with
  | step n ih =>
    have hu := h.wrapping.unwraps.of_mem hn
    have hsub : ∀ k ctx m, .sub k ctx m ∈ n.node.written .plain → ∀ depth,
        (m.prune (.dropping ws)).node.leftText (unit.plan options found.removals) depth =
          m.node.leftText (unit'.plan options found'.removals) depth := fun k ctx m hm =>
      ih _ _ k ctx m hm (mem_nodes_trans hn (Node.mem_nodes_of_piece hm m.self_mem_nodes))
    -- Only wrappers are gone from the pruned tree. Any other node stands in both trees, and goes
    -- from the one exactly if it goes from the other.
    by_cases hr : n.node.remnant? (.dropping ws) = none
    · cases hgoes : n.node.remnant? (unit'.plan options found'.removals) with
      | none =>
        have hstays : (n.prune (.dropping ws)).node.remnant? (unit.plan options found.removals) =
            none := by
          by_contra hsome
          obtain ⟨r, hsome⟩ := Option.ne_none_iff_exists'.mp hsome
          obtain ⟨id, f, a, s, heq, hid⟩ := Node.exists_of_remnant? hsome
          obtain ⟨callee, arg, rfl, -⟩ := AnyNode.exists_of_prune_call hr heq
          rw [h.plan_eq hn hr] at hid
          exact absurd (hgoes.symm.trans hid) (by simp)
        rw [Node.leftText_of_stays hstays, Node.leftText_of_stays hgoes, hu.written_prune hr,
          List.map_map]
        refine congrArg String.join (List.map_congr_left fun p hp => ?_)
        cases p with
        | text s => rfl
        | line k => rfl
        | sub k ctx m => exact hsub k ctx m hp _
      | some r =>
        obtain ⟨id, callee, arg, spread, heq, hid⟩ := Node.exists_of_remnant? hgoes
        obtain ⟨n⟩ := n
        cases heq
        have hplan := (h.plan_eq hn hr).trans hid
        have harg := hsub 0 .plain ⟨arg⟩ (Node.arg_mem_written ..) depth
        rw [AnyNode.prune, Node.prune_call hr]
        cases r with
        | bare =>
          rw [Node.leftText_bare hid, List.map_singleton, Node.leftText_bare hplan]
          exact harg
        | wrapped =>
          rw [Node.leftText_wrapped hid, List.map_singleton, Node.leftText_wrapped hplan]
          exact congrArg (fun s => "(" ++ (s ++ ")")) harg
    · rcases hu.stays_or_wrapper (n := n.node) with hr' | ⟨id, w, name, arg, spread, hid, heq, hprune⟩
      · exact (hr hr').elim
      obtain ⟨n⟩ := n
      cases heq
      obtain ⟨w', hw, heq⟩ := h.wrapping.exists_wrapper hn hr
      cases heq
      rw [hprune, Node.leftText_bare (h.plan_wrapper hw)]
      exact hsub 0 .plain _ (Node.arg_mem_written ..) depth

theorem exists_text (h : Comparison ws options unit unit' found found') :
    ∃ text, Deletion.apply unit.source found.removals.edits = .ok text ∧
      Deletion.apply unit'.source found'.removals.edits = .ok text := by
  have hw := h.wrapping
  have hids := hw.distinctIds_plain
  have hleft := apply_eq_leftText h.printed hids h.tokens_plain.hasWords h.detected (fun _ hr => hr)
    (h.callees.calleesStay hids _)
  have hleft' := apply_eq_leftText h.printed' hw.ids h.tokens.hasWords h.detected' (fun _ hr => hr)
    h.calleesStay_wrapped
  have htext := h.leftText_prune (self_mem_nodes ⟨unit'.file⟩) 0
  rw [hw.prune_file] at htext
  exact ⟨_, hleft, htext ▸ hleft'⟩

end Comparison

/-- Wrappers leave no trace: with or without them, deleting all removals leaves the same text. A
wrapper may be around another one, so a chain is rewritten as its innermost conversion alone is. In the
header of a statement no wrapped conversion may expose a composite literal, which could need parentheses
of its own. -/
theorem Wrapping.leaves_no_trace {ws : List Wrapper} {info info' : TypeInfo} {plain wrapped : File}
    (h : Wrapping ws info plain info' wrapped) (htok : HasTokens ⟨wrapped⟩)
    (hprec : PrecedenceKept plain) (hcallees : PlainCallees info plain)
    (hexposes : ∀ w ∈ ws, InHeader ⟨wrapped⟩ ⟨w.innerExpr⟩ → w.innerExpr.exposes = false) {path : Path}
    {options : DetectOptions}
    {found found' : Findings} (hplain : detect (.ofFile path plain info) options = .ok found)
    (hwrapped : detect (.ofFile path wrapped info') options = .ok found') :
    ∃ text, Deletion.apply plain.layout.text found.removals.edits = .ok text ∧
      Deletion.apply wrapped.layout.text found'.removals.edits = .ok text := by
  have hc : Comparison ws options (.ofFile path plain info) (.ofFile path wrapped info') found
      found' :=
    ⟨h, htok, hprec, hcallees, hexposes, SourceUnit.printed_ofFile .., SourceUnit.printed_ofFile ..,
      hplain, hwrapped⟩
  exact hc.exists_text

/-! ## A chain, and a literal -/

/-- `_ = -x`, for an expression that the checker knows. -/
def negated (x : Expr) : SourceUnit := .ofBody
  [.assign 1 [.ident 2 "_"] .assign [.unary 3 .neg x]]
  [(4, ⟨.value, .basic .int⟩), (5, ⟨.type, .basic .int⟩), (6, ⟨.value, .basic .int⟩),
    (7, ⟨.type, .basic .int⟩), (8, ⟨.value, .basic .int⟩), (9, ⟨.type, .basic .int⟩),
    (10, ⟨.value, .basic .int⟩)]

/-- `int(int(-y))` -/
def innerWrapper : Wrapper := ⟨6, ⟨7, "int"⟩, 8, .ident 9 "int", .unary 10 .neg (.ident 11 "y"), false⟩

/-- `int(int(int(-y)))` -/
def outerWrapper : Wrapper := ⟨4, ⟨5, "int"⟩, 6, .ident 7 "int", innerWrapper.innerExpr, false⟩

theorem wrapping_chain :
    Wrapping [outerWrapper, innerWrapper] (negated innerWrapper.innerExpr).info
      (negated innerWrapper.innerExpr).file (negated outerWrapper.expr).info
      (negated outerWrapper.expr).file where
  unwrapped := by
    simp [negated, SourceUnit.ofBody, SourceUnit.ofFile, Node.prune, Plan.dropping, outerWrapper,
      innerWrapper, Wrapper.expr, Wrapper.innerExpr]
  ids := by decide +kernel
  mem := by
    refine List.forall_mem_cons.mpr ⟨?_, List.forall_mem_singleton.mpr ?_⟩
    · exact mem_nodes_of_below? [0, 1, 0, 1, 0] rfl
    · exact mem_nodes_of_below? [0, 1, 0, 1, 0, 1] rfl
  agrees := ⟨fun _ _ => rfl, fun _ _ _ _ => rfl⟩
  recorded := by
    have hint : identical (.basic .int) (.basic .int) = true := (identical_iff _ _).mpr rfl
    refine List.forall_mem_cons.mpr ⟨?_, List.forall_mem_singleton.mpr ?_⟩
    all_goals exact ⟨_, _, _, _, rfl, ⟨rfl, rfl, hint⟩, ⟨rfl, rfl, hint⟩, rfl, rfl, hint⟩
  noBuiltin _ _ := rfl

/-- `W(T{}.U(x))` -/
def literalWrapper : Wrapper :=
  ⟨6, ⟨7, "W"⟩, 8, .selector 9 (.composite 10 (some (.ident 11 "T")) []) ⟨12, "U"⟩, .ident 13 "x",
    false⟩

/-- `_ = x`, for an expression that the checker knows. -/
def assigned (x : Expr) : SourceUnit := .ofBody [.assign 1 [.ident 2 "_"] .assign [x]]
  [(6, ⟨.value, .named ⟨1, some "p", "U", none⟩⟩), (7, ⟨.type, .named ⟨1, some "p", "U", none⟩⟩),
    (8, ⟨.value, .named ⟨1, some "p", "U", none⟩⟩), (9, ⟨.type, .named ⟨1, some "p", "U", none⟩⟩),
    (13, ⟨.value, .basic .int⟩)]

theorem wrapping_literal :
    Wrapping [literalWrapper] (assigned literalWrapper.innerExpr).info
      (assigned literalWrapper.innerExpr).file (assigned literalWrapper.expr).info
      (assigned literalWrapper.expr).file where
  unwrapped := by
    simp [assigned, SourceUnit.ofBody, SourceUnit.ofFile, Node.prune, Plan.dropping, literalWrapper,
      Wrapper.expr, Wrapper.innerExpr]
  ids := by decide +kernel
  mem := List.forall_mem_singleton.mpr (mem_nodes_of_below? [0, 1, 0, 1] rfl)
  agrees := ⟨fun _ _ => rfl, fun _ _ _ _ => rfl⟩
  recorded := by
    have hnamed : identical (.named ⟨1, some "p", "U", none⟩) (.named ⟨1, some "p", "U", none⟩) = true :=
      (identical_iff _ _).mpr rfl
    refine List.forall_mem_singleton.mpr ?_
    exact ⟨_, _, _, _, rfl, ⟨rfl, rfl, hnamed⟩, ⟨rfl, rfl, hnamed⟩, rfl, rfl, hnamed⟩
  noBuiltin _ _ := rfl

/-- `_ = -int(int(int(-y)))` and `_ = -int(-y)` become the same, and so do `_ = W(T{}.U(x))` and
`_ = T{}.U(x)`, where the literal shows outside of any header. -/
theorem chain_leaves_no_trace :
    (∃ found found' text, detect (negated innerWrapper.innerExpr) .default = .ok found ∧
      detect (negated outerWrapper.expr) .default = .ok found' ∧
      found'.removals.toList.length = 3 ∧
      Deletion.apply (negated innerWrapper.innerExpr).source found.removals.edits = .ok text ∧
      Deletion.apply (negated outerWrapper.expr).source found'.removals.edits = .ok text) ∧
    literalWrapper.innerExpr.exposes = true ∧
    ∃ found found' text, detect (assigned literalWrapper.innerExpr) .default = .ok found ∧
      detect (assigned literalWrapper.expr) .default = .ok found' ∧
      found'.removals.toList.length = 1 ∧
      Deletion.apply (assigned literalWrapper.innerExpr).source found.removals.edits = .ok text ∧
      Deletion.apply (assigned literalWrapper.expr).source found'.removals.edits = .ok text := by
  refine ⟨?_, by decide +kernel, ?_⟩
  · have hplain : ∃ found, detect (negated innerWrapper.innerExpr) .default = .ok found ∧
        found.removals = ⟨[⟨31, [⟨28, 31⟩]⟩], by decide⟩ := exists_found _ (by decide +kernel)
    have hwrapped : ∃ found, detect (negated outerWrapper.expr) .default = .ok found ∧
        found.removals = ⟨[⟨31, [⟨28, 32⟩, ⟨44, 45⟩]⟩, ⟨35, [⟨32, 36⟩, ⟨43, 44⟩]⟩, ⟨39, [⟨36, 39⟩]⟩],
          by decide⟩ := exists_found _ (by decide +kernel)
    have hclosed : ∀ w ∈ [outerWrapper, innerWrapper], w.innerExpr.exposes = false := by
      decide +kernel
    obtain ⟨found, h, -⟩ := hplain
    obtain ⟨found', h', hfound'⟩ := hwrapped
    obtain ⟨text, htext, htext'⟩ := wrapping_chain.leaves_no_trace
      (hasTokens_iff.mpr (by decide +kernel)) (precedenceKept_iff.mpr (by decide +kernel))
      (plainCallees_of_all (by decide +kernel)) (fun w hw _ => hclosed w hw) h h'
    exact ⟨found, found', text, h, h', by rw [hfound']; rfl, htext, htext'⟩
  · have hplain : ∃ found, detect (assigned literalWrapper.innerExpr) .default = .ok found ∧
        found.removals = ⟨[], .nil⟩ := exists_found _ (by decide +kernel)
    have hwrapped : ∃ found, detect (assigned literalWrapper.expr) .default = .ok found ∧
        found.removals = ⟨[⟨28, [⟨27, 29⟩, ⟨37, 38⟩]⟩], by decide⟩ := exists_found _ (by decide +kernel)
    have hout : ¬ InHeader ⟨(assigned literalWrapper.expr).file⟩ ⟨literalWrapper.innerExpr⟩ :=
      not_inHeader_of_all (by decide +kernel)
    obtain ⟨found, h, -⟩ := hplain
    obtain ⟨found', h', hfound'⟩ := hwrapped
    obtain ⟨text, htext, htext'⟩ := wrapping_literal.leaves_no_trace
      (hasTokens_iff.mpr (by decide +kernel)) (precedenceKept_iff.mpr (by decide +kernel))
      (plainCallees_of_all (by decide +kernel))
      (List.forall_mem_singleton.mpr fun hin => (hout hin).elim) h h'
    exact ⟨found, found', text, h, h', by rw [hfound']; rfl, htext, htext'⟩

/-- `if (x == y) {}`, for an expression that the checker knows. -/
def compared (x : Expr) : SourceUnit := .ofBody
  [.ifStmt 1 none (.paren 2 (.binary 3 x .eql (.ident 4 "y"))) (.block 5 []) none]
  [(6, ⟨.value, .named ⟨1, some "p", "U", none⟩⟩), (7, ⟨.type, .named ⟨1, some "p", "U", none⟩⟩),
    (8, ⟨.value, .named ⟨1, some "p", "U", none⟩⟩), (9, ⟨.type, .named ⟨1, some "p", "U", none⟩⟩),
    (13, ⟨.value, .basic .int⟩)]

/-- `if (W(T{}.U(x)) == y) {}` keeps the parentheses of the wrapper, since they make the others
superfluous. -/
theorem literalWrapper_leaves_parens :
    Wrapping [literalWrapper] (compared literalWrapper.innerExpr).info
      (compared literalWrapper.innerExpr).file (compared literalWrapper.expr).info
      (compared literalWrapper.expr).file ∧
    HasTokens ⟨(compared literalWrapper.expr).file⟩ ∧
    PrecedenceKept (compared literalWrapper.innerExpr).file ∧
    HeaderSafe ⟨(compared literalWrapper.innerExpr).file⟩ .plain ∧
    PlainCallees (compared literalWrapper.innerExpr).info (compared literalWrapper.innerExpr).file ∧
    literalWrapper.callee.isTypeName = true ∧
    ∃ found found', detect (compared literalWrapper.innerExpr) .default = .ok found ∧
      detect (compared literalWrapper.expr) .default = .ok found' ∧
      Deletion.apply (compared literalWrapper.innerExpr).source found.removals.edits =
        .ok "package p\n\nfunc f() \x7b\n\tif (T\x7b\x7d.U(x) == y) \x7b\n\t\x7d\n\x7d\n" ∧
      Deletion.apply (compared literalWrapper.expr).source found'.removals.edits =
        .ok "package p\n\nfunc f() \x7b\n\tif ((T\x7b\x7d.U(x)) == y) \x7b\n\t\x7d\n\x7d\n" := by
  have hnamed : identical (.named ⟨1, some "p", "U", none⟩) (.named ⟨1, some "p", "U", none⟩) = true :=
    (identical_iff _ _).mpr rfl
  refine ⟨⟨?_, by decide +kernel, ?_, ⟨fun _ _ => rfl, fun _ _ _ _ => rfl⟩, ?_, fun _ _ => rfl⟩,
    hasTokens_iff.mpr (by decide +kernel), precedenceKept_iff.mpr (by decide +kernel),
    by decide +kernel, plainCallees_of_all (by decide +kernel), rfl, ?_⟩
  · simp [compared, SourceUnit.ofBody, SourceUnit.ofFile, Node.prune, Plan.dropping, literalWrapper,
      Wrapper.expr, Wrapper.innerExpr]
  · exact List.forall_mem_singleton.mpr (mem_nodes_of_below? [0, 1, 0, 0, 0, 0] rfl)
  · refine List.forall_mem_singleton.mpr ?_
    exact ⟨_, _, _, _, rfl, ⟨rfl, rfl, hnamed⟩, ⟨rfl, rfl, hnamed⟩, rfl, rfl, hnamed⟩
  · have hplain : ∃ found, detect (compared literalWrapper.innerExpr) .default = .ok found ∧
        found.removals = ⟨[], .nil⟩ := exists_found _ (by decide +kernel)
    have hwrapped : ∃ found, detect (compared literalWrapper.expr) .default = .ok found ∧
        found.removals = ⟨[⟨28, [⟨27, 28⟩]⟩], by decide⟩ := exists_found _ (by decide +kernel)
    obtain ⟨found, h, hfound⟩ := hplain
    obtain ⟨found', h', hfound'⟩ := hwrapped
    refine ⟨found, found', h, h', ?_, ?_⟩
    · rw [hfound]
      cbv
    · rw [hfound']
      cbv

end ConvSweep
