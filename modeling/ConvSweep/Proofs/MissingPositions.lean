import ConvSweep.Proofs.ChainTrials
import ConvSweep.Proofs.TrialAnswers

/-! # Failing for want of a position

A cut looks up three positions and then tries the parentheses. The trial never fails, because the top
of a chain is visited and so stands in a slot of its parent.
-/

namespace ConvSweep

open AnyNode Detect

namespace Conversion

/-- What the cut of a conversion looks up, in order: the node, and whether its position is there. -/
def lookups (unit : SourceUnit) (c : Conversion) : List (NodeId × Bool) :=
  [(c.id, (unit.span? c.id).isSome), (c.id, (unit.parens? c.id).isSome),
    (c.arg.id, (unit.span? c.arg.id).isSome)]

/-- The node of the first position that is not there. -/
def missing? (unit : SourceUnit) (c : Conversion) : Option NodeId :=
  ((c.lookups unit).find? (!·.2)).map (·.1)

theorem missing?_eq_none_iff {unit : SourceUnit} {c : Conversion} :
    c.missing? unit = none ↔ (unit.span? c.id).isSome ∧ (unit.parens? c.id).isSome ∧
      (unit.span? c.arg.id).isSome := by
  simp [missing?, lookups, Option.isSome_iff_ne_none]

end Conversion

section

variable {unit : SourceUnit} {options : DetectOptions} {e : DetectError}

/-! ## One cut -/

theorem exists_trial (hids : DistinctIds ⟨unit.file⟩) {c : Conversion}
    (hc : c ∈ unit.conversions options) :
    ∃ trial, ParensTrial.run (chainTop (unit.redundant options) c.id c.ancestors).2
      (chainTop (unit.redundant options) c.id c.ancestors).1 c.arg = some trial := by
  obtain ⟨t, above, hv, -, htop⟩ :=
    exists_top (visit_of_conversion hids hc) (redundant_of_conversion hc)
  change chainTop _ c.id c.ancestors = _ at htop
  rw [htop]
  exact ParensTrial.exists_run hv c.arg

theorem cut_eq_error_iff (hids : DistinctIds ⟨unit.file⟩) {c : Conversion}
    (hc : c ∈ unit.conversions options) :
    unit.cut options c = .error e ↔
      ∃ node, c.missing? unit = some node ∧ e = .missingPosition node := by
  obtain ⟨trial, htrial⟩ := exists_trial hids hc
  unfold SourceUnit.cut cut position Conversion.missing? Conversion.lookups
  cases unit.span? c.id with
  | none => simp [bind, Except.bind, eq_comm]
  | some span =>
  cases unit.parens? c.id with
  | none => simp [bind, Except.bind, eq_comm]
  | some parens =>
  cases unit.span? c.arg.id with
  | none => simp [bind, Except.bind, eq_comm]
  | some arg =>
    simp only [htrial]
    cases goesAway (unit.redundant options) c.arg <;> simp [bind, Except.bind, pure, Except.pure]

theorem exists_cut_iff (hids : DistinctIds ⟨unit.file⟩) {c : Conversion}
    (hc : c ∈ unit.conversions options) :
    (∃ k, unit.cut options c = .ok k) ↔ c.missing? unit = none := by
  have herror := fun e => cut_eq_error_iff (e := e) hids hc
  cases hcut : unit.cut options c with
  | error e =>
    obtain ⟨node, hnode, -⟩ := (herror e).mp hcut
    simp [hnode]
  | ok k =>
    simp only [Except.ok.injEq, exists_eq', true_iff]
    by_contra hne
    obtain ⟨node, hnode⟩ := Option.ne_none_iff_exists'.mp hne
    have := (herror _).mpr ⟨node, hnode, rfl⟩
    rw [hcut] at this
    cases this

/-! ## All cuts -/

theorem cuts_eq_error_iff {redundant : List NodeId} {vs : List Visit} :
    cuts unit redundant vs = .error e ↔
      ∃ before c after, vs.filterMap (Visit.conversion? redundant) = before ++ c :: after ∧
        (∀ d ∈ before, ∃ k, cut unit redundant d.ancestors d.id d.arg = .ok k) ∧
        cut unit redundant c.ancestors c.id c.arg = .error e := by
  fun_induction cuts unit redundant vs with
  | case1 => simp [pure, Except.pure]
  | case2 id callee arg spread ancestors vs hmem ih =>
    have hconv : Visit.conversion? redundant ⟨⟨.call id callee [arg] spread⟩, ancestors⟩ =
        some ⟨id, callee, arg, ancestors⟩ := if_pos hmem
    rw [List.filterMap_cons_some hconv]
    simp only [List.cons_eq_append_iff]
    -- Either this cut fails, and it is the first; or the first failure is found in the rest.
    cases hcut : cut unit redundant ancestors id arg with
    | error e' =>
      simp only [bind, Except.bind, Except.error.injEq]
      constructor
      · rintro rfl
        exact ⟨[], _, _, Or.inl ⟨rfl, rfl⟩, by simp, hcut⟩
      · rintro ⟨before, c, after, ⟨rfl, heq⟩ | ⟨tail, rfl, -⟩, hbefore, hc⟩
        · cases heq
          rw [hcut] at hc
          exact Except.error.inj hc
        · obtain ⟨k, hk⟩ := hbefore _ List.mem_cons_self
          rw [hcut] at hk
          cases hk
    | ok k =>
      have hrest : (cuts unit redundant vs >>= fun rest => pure (k :: rest)) = .error e ↔
          cuts unit redundant vs = .error e := by
        cases cuts unit redundant vs <;> simp [bind, Except.bind, pure, Except.pure]
      change (cuts unit redundant vs >>= fun rest => pure (k :: rest)) = .error e ↔ _
      rw [hrest, ih]
      constructor
      · rintro ⟨before, c, after, heq, hbefore, hc⟩
        refine ⟨_ :: before, c, after, Or.inr ⟨before, rfl, heq⟩, ?_, hc⟩
        exact List.forall_mem_cons.mpr ⟨⟨k, hcut⟩, hbefore⟩
      · rintro ⟨before, c, after, ⟨rfl, heq⟩ | ⟨tail, rfl, heq⟩, hbefore, hc⟩
        · cases heq
          rw [hcut] at hc
          cases hc
        · exact ⟨tail, c, after, heq, fun d hd => hbefore d (List.mem_cons_of_mem _ hd), hc⟩
  | case3 id callee arg spread ancestors vs hmem ih =>
    rw [ih, List.filterMap_cons_none]
    exact if_neg hmem
  | case4 v vs hv ih =>
    rw [ih, List.filterMap_cons_none]
    unfold Visit.conversion?
    split
    · exact (hv _ _ _ _ _ rfl).elim
    · rfl

theorem detect_eq_error_iff :
    detect unit options = .error e ↔
      cuts unit (unit.redundant options) (AnyNode.visits ⟨unit.file⟩ []) = .error e := by
  unfold detect SourceUnit.redundant
  generalize scan unit.file unit.info options = scan
  cases hcuts : cuts unit scan.redundant (AnyNode.visits ⟨unit.file⟩ []) <;>
    simp [hcuts, bind, Except.bind, pure, Except.pure]

/-- Detection fails exactly if a redundant conversion lacks a position. It names the first one that is
missing from the first such conversion of the walk, and never misses a slot. -/
theorem detect_fails_at_first_missing (hids : DistinctIds ⟨unit.file⟩) :
    (∀ e, detect unit options = .error e ↔
      ∃ node, (unit.conversions options).findSome? (·.missing? unit) = some node ∧
        e = .missingPosition node) ∧
    ((∃ node, detect unit options = .error (.missingPosition node)) ↔
      ∃ c ∈ unit.conversions options, unit.span? c.id = none ∨ unit.parens? c.id = none ∨
        unit.span? c.arg.id = none) ∧
    ∀ node, detect unit options ≠ .error (.missingSlot node) := by
  -- A cut fails exactly if something is missing from its conversion.
  have hfails : ∀ e, detect unit options = .error e ↔
      ∃ node, (unit.conversions options).findSome? (·.missing? unit) = some node ∧
        e = .missingPosition node := by
    intro e
    rw [detect_eq_error_iff, cuts_eq_error_iff, ← SourceUnit.conversions]
    simp only [List.findSome?_eq_some_iff]
    constructor
    · rintro ⟨before, c, after, heq, hbefore, hc⟩
      have hmem : ∀ d ∈ before ++ c :: after, d ∈ unit.conversions options := fun d hd => heq ▸ hd
      obtain ⟨node, hnode, he⟩ := (cut_eq_error_iff hids (hmem c (by simp))).mp hc
      refine ⟨node, ⟨before, c, after, heq, hnode, fun d hd => ?_⟩, he⟩
      exact (exists_cut_iff hids (hmem d (by simp [hd]))).mp (hbefore d hd)
    · rintro ⟨node, ⟨before, c, after, heq, hnode, hbefore⟩, he⟩
      have hmem : ∀ d ∈ before ++ c :: after, d ∈ unit.conversions options := fun d hd => heq ▸ hd
      refine ⟨before, c, after, heq, fun d hd => ?_, ?_⟩
      · exact (exists_cut_iff hids (hmem d (by simp [hd]))).mpr (hbefore d hd)
      · exact (cut_eq_error_iff hids (hmem c (by simp))).mpr ⟨node, hnode, he⟩
  refine ⟨hfails, ?_, ?_⟩
  · have hsome : (∃ node, detect unit options = .error (.missingPosition node)) ↔
        ((unit.conversions options).findSome? (·.missing? unit)).isSome = true := by
      simp [hfails, Option.isSome_iff_exists]
    rw [hsome, List.findSome?_isSome_iff]
    simp only [Option.isSome_iff_ne_none, ne_eq, Conversion.missing?_eq_none_iff, not_and_or, not_not]
  · intro node h
    obtain ⟨_, -, he⟩ := (hfails _).mp h
    cases he

end

/-- `negatedChain` without the place of the innermost operand. -/
def unplacedOperand : SourceUnit :=
  { negatedChain with positions := { negatedChain.positions with
    spans := negatedChain.positions.spans.erase 8 } }

/-- The outer conversion has all its positions, so the inner one is the first that fails. -/
theorem unplacedOperand_fails :
    DistinctIds ⟨unplacedOperand.file⟩ ∧
      (unplacedOperand.conversions .default).map (·.id) = [4, 6] ∧
      detect unplacedOperand .default = .error (.missingPosition 8) := by
  have hids : DistinctIds ⟨unplacedOperand.file⟩ := distinctIds_negatedChain
  refine ⟨hids, by decide +kernel, ?_⟩
  exact ((detect_fails_at_first_missing hids).1 _).mpr ⟨8, by decide +kernel, rfl⟩

end ConvSweep
