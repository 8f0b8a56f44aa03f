import Mathlib.Data.List.Pairwise
import ConvSweep.Proofs.Conversions
import ConvSweep.Proofs.Deletion
import ConvSweep.Proofs.Layout

/-! # When the edits of a file clash

Where positions follow the tree, the edits of conversions that stand side by side, or one in the
argument of the other, keep clear of each other. A conversion inside the callee of another one is
deleted twice.
-/

namespace ConvSweep

/-! ## The edits of one conversion -/

/-- No edit of one removal overlaps one of the other. -/
def Removal.KeepsClear (r s : Removal) : Prop :=
  ∀ e ∈ r.edits, ∀ f ∈ s.edits, e.overlaps f = false

instance : Std.Symm Removal.KeepsClear where
  symm _ _ h e he f hf := Edit.overlaps_symm (h f hf e he)

section

variable {size : Nat} {call callee arg : Span} {p : ParenPair}

theorem Remnant.edits_inside (h : p.Encloses size call callee arg) (r : Remnant) :
    ∀ e ∈ (r.removal call p arg).edits, e.Fits size ∧ call.start ≤ e.start ∧ e.stop ≤ call.stop ∧
      (e.stop ≤ arg.start ∨ arg.stop ≤ e.start) := by
  unfold ParenPair.Encloses at h
  intro e he
  cases r with
  | bare =>
    simp only [removal, Removal.stripParens, List.mem_cons, List.not_mem_nil, or_false] at he
    rcases he with rfl | rfl <;> simp only [Edit.Fits] <;> omega
  | wrapped =>
    simp only [removal, Removal.keepParens, List.mem_cons] at he
    rcases he with rfl | he
    · simp only [Edit.Fits]
      omega
    · split at he
      · rw [List.mem_singleton] at he
        subst he
        simp only [Edit.Fits]
        omega
      · simp at he

theorem Remnant.edits_pairwise (h : p.Encloses size call callee arg) (r : Remnant) :
    (r.removal call p arg).edits.Pairwise fun a b => a.overlaps b = false := by
  unfold ParenPair.Encloses at h
  cases r with
  | bare =>
    simp only [removal, Removal.stripParens, List.pairwise_cons, List.mem_singleton, forall_eq,
      List.not_mem_nil, false_implies, implies_true, List.Pairwise.nil, and_true]
    rw [Edit.overlaps_eq_false_iff]
    simp only
    omega
  | wrapped =>
    simp only [removal, Removal.keepParens]
    split
    · simp only [List.pairwise_cons, List.mem_singleton, forall_eq, List.not_mem_nil, false_implies,
        implies_true, List.Pairwise.nil, and_true]
      rw [Edit.overlaps_eq_false_iff]
      simp only
      omega
    · exact List.pairwise_singleton _ _

theorem Remnant.exists_edit_over_callee (h : p.Encloses size call callee arg) (r : Remnant) :
    ∃ e ∈ (r.removal call p arg).edits, e.start ≤ callee.start ∧ callee.stop ≤ e.stop := by
  unfold ParenPair.Encloses at h
  cases r with
  | bare =>
    refine ⟨⟨call.start, arg.start⟩, by simp [removal, Removal.stripParens], ?_⟩
    simp only
    omega
  | wrapped =>
    refine ⟨⟨call.start, p.lparen⟩, by simp [removal, Removal.keepParens], ?_⟩
    simp only
    omega

end

/-! ## The edits of two conversions -/

section

variable {unit : SourceUnit} {options : DetectOptions} {found : Findings}

namespace Conversion

/-- A conversion that is cut, with the places of its parts. -/
structure PlacedBy (unit : SourceUnit) (c : Conversion) (r : Removal) (call callee arg : Span)
    (p : ParenPair) : Prop where
  span_call : unit.span? c.id = some call
  span_callee : unit.span? c.callee.id = some callee
  span_arg : unit.span? c.arg.id = some arg
  encloses : p.Encloses unit.size call callee arg
  removal : ∃ remnant : Remnant, r = remnant.removal call p arg

theorem exists_placedBy (hids : AnyNode.DistinctIds ⟨unit.file⟩) (hpos : unit.Consistent)
    {c : Conversion} (hc : c ∈ unit.conversions options) {k : Detect.Cut}
    (hk : unit.cut options c = .ok k) :
    ∃ call callee arg p, c.PlacedBy unit k.removal call callee arg p := by
  obtain ⟨⟨call, p, arg, hcall, hp, harg, hr⟩, -⟩ := Detect.cut_cases hk
  obtain ⟨callee, hcallee, henc⟩ := hpos.calls c.node (node_mem hids hc) call hcall p hp arg harg
  exact ⟨call, callee, arg, p, hcall, hcallee, harg, henc, k.remnant, hr⟩

variable {c d : Conversion} {r s : Removal} {call callee arg call' callee' arg' : Span}
  {p p' : ParenPair}

theorem PlacedBy.disjoint_of_mem_arg (hids : AnyNode.DistinctIds ⟨unit.file⟩)
    (hpos : unit.Consistent) (hc : c.PlacedBy unit r call callee arg p)
    (hd : d.PlacedBy unit s call' callee' arg' p') (hcm : c ∈ unit.conversions options)
    (hin : d.node ∈ AnyNode.nodes ⟨c.arg⟩) :
    r.KeepsClear s := by
  obtain ⟨rem, rfl⟩ := hc.removal
  obtain ⟨rem', rfl⟩ := hd.removal
  have harg : (⟨c.arg⟩ : AnyNode) ∈ AnyNode.nodes ⟨unit.file⟩ := by
    refine AnyNode.mem_nodes_trans (node_mem hids hcm) (AnyNode.child_mem_nodes ?_)
    simp [children_node]
  have hwithin := hpos.within _ harg d.node hin call' hd.span_call arg hc.span_arg
  unfold Span.Within at hwithin
  intro e he f hf
  have he' := rem.edits_inside hc.encloses e he
  have hf' := rem'.edits_inside hd.encloses f hf
  rw [Edit.overlaps_eq_false_iff]
  omega

theorem PlacedBy.disjoint_of_disjoint (hc : c.PlacedBy unit r call callee arg p)
    (hd : d.PlacedBy unit s call' callee' arg' p') (h : call.Disjoint call') :
    r.KeepsClear s := by
  obtain ⟨rem, rfl⟩ := hc.removal
  obtain ⟨rem', rfl⟩ := hd.removal
  intro e he f hf
  have he' := rem.edits_inside hc.encloses e he
  have hf' := rem'.edits_inside hd.encloses f hf
  unfold Edit.Fits at he' hf'
  unfold Span.Disjoint at h
  rw [Edit.overlaps_eq_false_iff]
  omega

theorem PlacedBy.overlap_of_mem_callee (hids : AnyNode.DistinctIds ⟨unit.file⟩)
    (hpos : unit.Consistent) (hc : c.PlacedBy unit r call callee arg p)
    (hd : d.PlacedBy unit s call' callee' arg' p') (hcm : c ∈ unit.conversions options)
    (hin : d.node ∈ AnyNode.nodes ⟨c.callee⟩) :
    r ≠ s ∧ ∃ e ∈ r.edits, ∃ f ∈ s.edits, e.overlaps f = true := by
  obtain ⟨rem, rfl⟩ := hc.removal
  obtain ⟨rem', rfl⟩ := hd.removal
  have hcallee : (⟨c.callee⟩ : AnyNode) ∈ AnyNode.nodes ⟨unit.file⟩ := by
    refine AnyNode.mem_nodes_trans (node_mem hids hcm) (AnyNode.child_mem_nodes ?_)
    simp [children_node]
  have hwithin := hpos.within _ hcallee d.node hin call' hd.span_call callee hc.span_callee
  unfold Span.Within at hwithin
  have hcenc := hc.encloses
  have hdenc := hd.encloses
  unfold ParenPair.Encloses at hcenc hdenc
  constructor
  · intro h
    have := congrArg Removal.lparen h
    rw [Remnant.lparen_removal, Remnant.lparen_removal] at this
    omega
  · obtain ⟨e, he, hover⟩ := rem.exists_edit_over_callee hc.encloses
    obtain ⟨f, hf, hover'⟩ := rem'.exists_edit_over_callee hd.encloses
    refine ⟨e, he, f, hf, ?_⟩
    have hf' := rem'.edits_inside hd.encloses f hf
    rw [← Bool.not_eq_false, Edit.overlaps_eq_false_iff]
    omega

end Conversion

/-! ## The edits of a file -/

theorem exists_placedBy_of_mem (hids : AnyNode.DistinctIds ⟨unit.file⟩) (hpos : unit.Consistent)
    (h : detect unit options = .ok found) {r : Removal} (hr : r ∈ found.removals.toList) :
    ∃ c ∈ unit.conversions options, ∃ call callee arg p, c.PlacedBy unit r call callee arg p := by
  obtain ⟨c, hc, k, hk, rfl⟩ := (mem_removals_iff h).mp hr
  exact ⟨c, hc, Conversion.exists_placedBy hids hpos hc hk⟩

theorem fits_of_mem_edits (hids : AnyNode.DistinctIds ⟨unit.file⟩) (hpos : unit.Consistent)
    (h : detect unit options = .ok found) {e : Edit} (he : e ∈ found.removals.edits) :
    e.Fits unit.size := by
  obtain ⟨r, hr, her⟩ := List.mem_flatMap.mp he
  obtain ⟨c, -, call, callee, arg, p, hp⟩ := exists_placedBy_of_mem hids hpos h hr
  obtain ⟨rem, rfl⟩ := hp.removal
  exact (rem.edits_inside hp.encloses e her).1

theorem disjoint_edits_of_ne (hids : AnyNode.DistinctIds ⟨unit.file⟩) (hpos : unit.Consistent)
    {c d : Conversion} (hc : c ∈ unit.conversions options) (hd : d ∈ unit.conversions options)
    (hne : c ≠ d) (hcd : d.node ∉ AnyNode.nodes ⟨c.callee⟩) (hdc : c.node ∉ AnyNode.nodes ⟨d.callee⟩)
    {r s : Removal} {call callee arg call' callee' arg' : Span} {p p' : ParenPair}
    (hr : c.PlacedBy unit r call callee arg p) (hs : d.PlacedBy unit s call' callee' arg' p') :
    r.KeepsClear s := by
  have hnode : c.node ≠ d.node := fun heq =>
    hne (conversion_eq_of_id hids hc hd (congrArg AnyNode.id heq))
  rcases AnyNode.nested_or_apart (Conversion.node_mem hids hc) (Conversion.node_mem hids hd) with
    hin | hin | ⟨n, hn, a, ha, b, hb, hab, hca, hdb⟩
  · rcases AnyNode.mem_nodes_iff.mp hin with heq | ⟨m, hm, hin⟩
    · exact (hnode heq).elim
    · rw [Conversion.children_node] at hm
      simp only [List.mem_cons, List.not_mem_nil, or_false] at hm
      rcases hm with rfl | rfl
      · exact (hdc hin).elim
      · exact symm (hs.disjoint_of_mem_arg hids hpos hr hd hin)
  · rcases AnyNode.mem_nodes_iff.mp hin with heq | ⟨m, hm, hin⟩
    · exact (hnode heq.symm).elim
    · rw [Conversion.children_node] at hm
      simp only [List.mem_cons, List.not_mem_nil, or_false] at hm
      rcases hm with rfl | rfl
      · exact (hcd hin).elim
      · exact hr.disjoint_of_mem_arg hids hpos hs hc hin
  · have hdis := (hpos.disjoint n hn).forall ha hb hab c.node hca d.node hdb call hr.span_call
      call' hs.span_call
    exact hr.disjoint_of_disjoint hs hdis

theorem pairwise_edits_iff (hids : AnyNode.DistinctIds ⟨unit.file⟩) (hpos : unit.Consistent)
    (h : detect unit options = .ok found) :
    (found.removals.edits.Pairwise fun a b => a.overlaps b = false) ↔
      unit.file.CalleesStay (unit.plan options found.removals) := by
  rw [RemovalSet.edits, List.pairwise_flatMap]
  change _ ∧ found.removals.toList.Pairwise Removal.KeepsClear ↔ _
  constructor
  · rintro ⟨-, hpair⟩ id callee arg spread hmem hid x hx
    by_contra hxid
    obtain ⟨c, hc, rfl⟩ := (plan_ne_none_iff hids h).mp hid
    obtain ⟨d, hd, hdid⟩ := (plan_ne_none_iff hids h).mp hxid
    cases hids.eq_of_id hmem (Conversion.node_mem hids hc) rfl
    have hxmem : x ∈ AnyNode.nodes ⟨unit.file⟩ := by
      refine AnyNode.mem_nodes_trans hmem (AnyNode.mem_nodes_of_child ?_ hx)
      simp [AnyNode.children, Node.children, Slot.one]
    obtain rfl := hids.eq_of_id (Conversion.node_mem hids hd) hxmem hdid
    obtain ⟨k, hk⟩ := exists_cut h hc
    obtain ⟨l, hl⟩ := exists_cut h hd
    obtain ⟨_, _, _, _, hck⟩ := Conversion.exists_placedBy hids hpos hc hk
    obtain ⟨_, _, _, _, hdl⟩ := Conversion.exists_placedBy hids hpos hd hl
    -- Both delete something of `d`, which lies inside the callee of `c`.
    obtain ⟨hne, e, he, f, hf, hover⟩ := hck.overlap_of_mem_callee hids hpos hdl hc hx
    have hclear := hpair.forall ((mem_removals_iff h).mpr ⟨c, hc, k, hk, rfl⟩)
      ((mem_removals_iff h).mpr ⟨d, hd, l, hl, rfl⟩) hne e he f hf
    rw [hover] at hclear
    cases hclear
  · intro hstay
    have hout : ∀ c ∈ unit.conversions options, ∀ d ∈ unit.conversions options,
        d.node ∉ AnyNode.nodes ⟨c.callee⟩ := by
      intro c hc d hd hin
      exact (plan_ne_none_iff hids h).mpr ⟨d, hd, rfl⟩ (hstay c.id c.callee c.arg false
        (Conversion.node_mem hids hc) ((plan_ne_none_iff hids h).mpr ⟨c, hc, rfl⟩) d.node hin)
    refine ⟨?_, found.removals.nodup_toList.pairwise_of_forall_ne ?_⟩
    · intro r hr
      obtain ⟨c, -, call, callee, arg, p, hp⟩ := exists_placedBy_of_mem hids hpos h hr
      obtain ⟨rem, rfl⟩ := hp.removal
      exact rem.edits_pairwise hp.encloses
    · intro r hr s hs hrs
      obtain ⟨c, hc, k, hk, rfl⟩ := (mem_removals_iff h).mp hr
      obtain ⟨d, hd, l, hl, rfl⟩ := (mem_removals_iff h).mp hs
      obtain ⟨_, _, _, _, hck⟩ := Conversion.exists_placedBy hids hpos hc hk
      obtain ⟨_, _, _, _, hdl⟩ := Conversion.exists_placedBy hids hpos hd hl
      refine disjoint_edits_of_ne hids hpos hc hd ?_ (hout c hc d hd) (hout d hd c hc) hck hdl
      rintro rfl
      rw [hk, Except.ok.injEq] at hl
      exact hrs (by rw [hl])

/-- The edits of a file are never empty or out of bounds. They are accepted exactly when no
conversion that goes lies inside the callee of another one that goes. -/
theorem detected_edits_accepted_iff (hids : AnyNode.DistinctIds ⟨unit.file⟩)
    (hpos : unit.Consistent) (h : detect unit options = .ok found) :
    (∀ e ∈ found.removals.edits, e.Fits unit.size) ∧
      ((found.removals.edits.Pairwise fun a b => a.overlaps b = false) ↔
        unit.file.CalleesStay (unit.plan options found.removals)) ∧
      ((∃ sorted, Deletion.validate unit.size found.removals.edits = .ok sorted) ↔
        unit.file.CalleesStay (unit.plan options found.removals)) := by
  have hfit : ∀ e ∈ found.removals.edits, e.Fits unit.size :=
    fun e he => fits_of_mem_edits hids hpos h he
  refine ⟨hfit, pairwise_edits_iff hids hpos h, ?_⟩
  rw [← pairwise_edits_iff hids hpos h]
  simp only [Deletion.validate_eq_ok_iff]
  exact ⟨fun ⟨_, _, _, hpair⟩ => hpair, fun hpair => ⟨_, rfl, hfit, hpair⟩⟩

end

theorem negatedChain_edits_accepted :
    ∃ found, detect negatedChain .default = .ok found ∧
      found.removals.edits = [⟨28, 32⟩, ⟨39, 40⟩, ⟨32, 35⟩] ∧
      (∀ e ∈ found.removals.edits, e.Fits negatedChain.size) ∧
      negatedChain.file.CalleesStay (negatedChain.plan .default found.removals) := by
  obtain ⟨found, h, hfound⟩ := removals_negatedChain
  have hedits : found.removals.edits = [⟨28, 32⟩, ⟨39, 40⟩, ⟨32, 35⟩] := by rw [hfound]; rfl
  have hids := distinctIds_negatedChain
  have hpos : negatedChain.Consistent :=
    (SourceUnit.printed_ofFile _ _ _).consistent hids (AnyNode.hasWords_iff.mpr (by decide +kernel))
  obtain ⟨hfit, -, haccepted⟩ := detected_edits_accepted_iff hids hpos h
  refine ⟨found, h, hedits, hfit, haccepted.mp ?_⟩
  rw [hedits]
  exact ⟨[⟨28, 32⟩, ⟨32, 35⟩, ⟨39, 40⟩], by cbv⟩

/-- `_ = [int(n)]int(x)`: the type of one conversion contains the other. -/
def convertedLength : SourceUnit := .ofBody
  [.assign 1 [.ident 2 "_"] .assign
    [.call 3 (.arrayType 4 (some (.call 5 (.ident 6 "int") [.ident 7 "n"] false)) (.ident 8 "int"))
      [.ident 9 "x"] false]]
  [(4, ⟨.type, .array 3 (.basic .int)⟩), (9, ⟨.addressable, .array 3 (.basic .int)⟩),
    (6, ⟨.type, .basic .int⟩), (7, ⟨.constant, .basic .int⟩)]

/-- Both conversions are redundant, and their edits clash. -/
theorem convertedLength_edits_clash :
    AnyNode.DistinctIds ⟨convertedLength.file⟩ ∧ convertedLength.Consistent ∧
      ∃ found, detect convertedLength .default = .ok found ∧
        Deletion.validate convertedLength.size found.removals.edits =
          .error (.overlapping ⟨27, 39⟩ ⟨28, 32⟩) := by
  have hids : AnyNode.DistinctIds ⟨convertedLength.file⟩ := by decide +kernel
  have hpos : convertedLength.Consistent :=
    (SourceUnit.printed_ofFile _ _ _).consistent hids (AnyNode.hasWords_iff.mpr (by decide +kernel))
  have hdetect : ∃ found, detect convertedLength .default = .ok found ∧
      found.removals = ⟨[⟨31, [⟨28, 32⟩, ⟨33, 34⟩]⟩, ⟨38, [⟨27, 39⟩, ⟨40, 41⟩]⟩], by decide⟩ :=
    exists_found _ (by decide +kernel)
  obtain ⟨found, h, hfound⟩ := hdetect
  refine ⟨hids, hpos, found, h, ?_⟩
  rw [hfound]
  cbv

end ConvSweep
