import Mathlib
import ConvSweep.Detect
import ConvSweep.Proofs.Prune

/-! # The conversions that go

Every removal that detection reports takes one redundant conversion out, bare or in its own
parentheses. A set of removals is therefore a plan for pruning the tree.
-/

namespace ConvSweep

/-! ## Sets of removals -/

namespace Removal

theorem key_injective {r s : Removal} (h : r.key = s.key) : r = s := by
  obtain ⟨l, es⟩ := r
  obtain ⟨l', fs⟩ := s
  simp only [key, List.cons.injEq] at h
  obtain ⟨rfl, h⟩ := h
  induction es generalizing fs with
  | nil =>
    cases fs with
    | nil => rfl
    | cons f fs => simp at h
  | cons e es ih =>
    cases fs with
    | nil => simp at h
    | cons f fs =>
      simp only [List.flatMap_cons, List.cons_append, List.nil_append, List.cons.injEq] at h
      obtain ⟨hstart, hstop, h⟩ := h
      have := ih fs h
      obtain ⟨_, _⟩ := e
      obtain ⟨_, _⟩ := f
      simp_all

end Removal

namespace RemovalSet

theorem mem_place {r x : Removal} {as : List Removal} : x ∈ place r as ↔ x = r ∨ x ∈ as := by
  induction as with
  | nil => simp [place]
  | cons a as ih =>
    unfold place
    split
    · simp
    split
    · simp only [List.mem_cons, ih]
      tauto
    · rename_i hra har
      have : r = a := Removal.key_injective (List.le_antisymm har hra)
      simp [this]

theorem mem_ofList {x : Removal} {rs : List Removal} : x ∈ (ofList rs).toList ↔ x ∈ rs := by
  suffices h : ∀ s : RemovalSet, x ∈ (rs.foldl insert s).toList ↔ x ∈ s.toList ∨ x ∈ rs by
    simpa [ofList, empty] using h empty
  induction rs with
  | nil => simp
  | cons r rs ih =>
    intro s
    rw [List.foldl_cons, ih, insert, mem_place, List.mem_cons]
    tauto

theorem nodup_toList (s : RemovalSet) : s.toList.Nodup := by
  refine s.sorted.imp ?_
  rintro a b hab rfl
  exact List.lt_irrefl _ hab

theorem contains_iff {s : RemovalSet} {r : Removal} : s.contains r = true ↔ r ∈ s.toList := by
  simp [contains]

end RemovalSet

namespace Detect

/-! ## The first walk -/

theorem Scan.redundant_visit (info : TypeInfo) (options : DetectOptions) (s : Scan) (v : Visit) :
    (s.visit info options v).redundant = s.redundant ∨
      ∃ id callee arg ancestors, v = ⟨⟨.call id callee [arg] false⟩, ancestors⟩ ∧
        (s.visit info options v).redundant = id :: s.redundant := by
  unfold visit
  split
  · rename_i id callee arg ancestors
    unfold conversion
    repeat' split
    all_goals first
      | exact Or.inl rfl
      | exact Or.inr ⟨id, callee, arg, ancestors, rfl, rfl⟩
  · exact Or.inl rfl

theorem exists_visit_of_redundant {file : File} {info : TypeInfo} {options : DetectOptions}
    {id : NodeId} (h : id ∈ (scan file info options).redundant) :
    ∃ callee arg ancestors,
      ⟨⟨.call id callee [arg] false⟩, ancestors⟩ ∈ AnyNode.visits ⟨file⟩ [] := by
  suffices hfold : ∀ (vs : List Visit) (s : Scan),
      id ∈ (vs.foldl (Scan.visit info options) s).redundant →
      id ∈ s.redundant ∨
        ∃ callee arg ancestors, ⟨⟨.call id callee [arg] false⟩, ancestors⟩ ∈ vs by
    rcases hfold _ _ h with h | h
    · simp [Scan.start] at h
    · exact h
  intro vs
  induction vs with
  | nil => exact fun s h => Or.inl h
  | cons v vs ih =>
    intro s h
    rcases ih _ h with h | ⟨callee, arg, ancestors, hv⟩
    · rcases s.redundant_visit info options v with hs | ⟨id', callee, arg, ancestors, rfl, hs⟩
      · rw [hs] at h
        exact Or.inl h
      · rw [hs, List.mem_cons] at h
        rcases h with rfl | h
        · exact Or.inr ⟨callee, arg, ancestors, List.mem_cons_self⟩
        · exact Or.inl h
    · exact Or.inr ⟨callee, arg, ancestors, List.mem_cons_of_mem _ hv⟩

/-! ## The second walk -/

end Detect

/-- A conversion that goes, as the walk meets it. -/
structure Conversion where
  id : NodeId
  callee : Expr
  arg : Expr
  ancestors : List AnyNode

namespace Conversion

/-- The call itself. -/
def expr (c : Conversion) : Expr := .call c.id c.callee [c.arg] false

def node (c : Conversion) : AnyNode := ⟨c.expr⟩

theorem children_node (c : Conversion) : c.node.children = [⟨c.callee⟩, ⟨c.arg⟩] := by
  simp [node, expr, AnyNode.children, Node.children, Slot.one, Slot.many]

end Conversion

/-- How the argument stays behind: in parentheses if the trial asks for them. -/
def Detect.Cut.remnant (k : Cut) : Remnant := if k.trial.any (·.required) then .wrapped else .bare

/-- The edits that leave a remnant of a conversion at these places. -/
def Remnant.removal (span : Span) (parens : ParenPair) (arg : Span) : Remnant → Removal
  | .bare => .stripParens span.start parens.lparen arg parens.rparen
  | .wrapped => .keepParens span.start parens.lparen arg.stop parens.rparen

theorem Remnant.lparen_removal (span : Span) (parens : ParenPair) (arg : Span) (r : Remnant) :
    (r.removal span parens arg).lparen = parens.lparen := by
  cases r <;> rfl

/-- Reads a visit as a redundant conversion. -/
def Visit.conversion? (redundant : List NodeId) : Visit → Option Conversion
  | ⟨⟨.call id callee [arg] _⟩, ancestors⟩ =>
    if redundant.contains id then some ⟨id, callee, arg, ancestors⟩ else none
  | _ => none

namespace SourceUnit

def redundant (unit : SourceUnit) (options : DetectOptions) : List NodeId :=
  (Detect.scan unit.file unit.info options).redundant

/-- The redundant conversions of a file, in the order of the walk. -/
def conversions (unit : SourceUnit) (options : DetectOptions) : List Conversion :=
  (AnyNode.visits ⟨unit.file⟩ []).filterMap (Visit.conversion? (unit.redundant options))

/-- What is deleted for a conversion. -/
def cut (unit : SourceUnit) (options : DetectOptions) (c : Conversion) :
    Except DetectError Detect.Cut :=
  Detect.cut unit (unit.redundant options) c.ancestors c.id c.arg

/-- The cut of a conversion, if it is among the given removals. -/
def cutIn (unit : SourceUnit) (options : DetectOptions) (removals : RemovalSet) (id : NodeId) :
    Option Detect.Cut :=
  (unit.conversions options).findSome? fun c =>
    match unit.cut options c with
    | .ok k => if c.id = id && removals.contains k.removal then some k else none
    | .error _ => none

/-- The conversions that a set of removals takes out. -/
def plan (unit : SourceUnit) (options : DetectOptions) (removals : RemovalSet) : Plan := fun id =>
  (unit.cutIn options removals id).map (·.remnant)

/-- The tree that is left without some conversions. -/
def without (unit : SourceUnit) (options : DetectOptions) (removals : RemovalSet) : File :=
  unit.file.prune (unit.plan options removals)

end SourceUnit

namespace Detect

theorem cuts_eq_ok_iff (unit : SourceUnit) (redundant : List NodeId) (vs : List Visit)
    (ks : List Cut) :
    cuts unit redundant vs = .ok ks ↔
      List.Forall₂ (fun c k => cut unit redundant c.ancestors c.id c.arg = .ok k)
        (vs.filterMap (Visit.conversion? redundant)) ks := by
  fun_induction cuts unit redundant vs generalizing ks with
  | case1 => cases ks <;> simp [pure, Except.pure]
  | case2 id callee arg spread ancestors vs hmem ih =>
    have hconv : Visit.conversion? redundant ⟨⟨.call id callee [arg] spread⟩, ancestors⟩ =
        some ⟨id, callee, arg, ancestors⟩ := if_pos hmem
    rw [List.filterMap_cons_some hconv]
    cases hcut : cut unit redundant ancestors id arg with
    | error e => cases ks <;> simp [bind, Except.bind, hcut]
    | ok k =>
      cases hrest : cuts unit redundant vs with
      | error e => cases ks <;> simp [bind, Except.bind, ← ih, hrest]
      | ok rest => cases ks <;> simp [bind, Except.bind, pure, Except.pure, ← ih, hrest, hcut]
  | case3 id callee arg spread ancestors vs hmem ih =>
    rw [ih, List.filterMap_cons_none]
    exact if_neg hmem
  | case4 v vs hv ih =>
    rw [ih, List.filterMap_cons_none]
    unfold Visit.conversion?
    split
    · exact (hv _ _ _ _ _ rfl).elim
    · rfl

theorem cut_cases {unit : SourceUnit} {redundant : List NodeId} {ancestors : List AnyNode}
    {call : NodeId} {arg : Expr} {k : Cut}
    (h : cut unit redundant ancestors call arg = .ok k) :
    (∃ span parens argSpan, unit.span? call = some span ∧ unit.parens? call = some parens ∧
      unit.span? arg.id = some argSpan ∧ k.removal = k.remnant.removal span parens argSpan) ∧
    ((goesAway redundant arg = true ∧ k.trial = none) ∨
      (goesAway redundant arg = false ∧
        ∃ trial, ParensTrial.run (chainTop redundant call ancestors).2
          (chainTop redundant call ancestors).1 arg = some trial ∧ k.trial = some trial)) := by
  unfold cut position at h
  cases hs : unit.span? call with
  | none => simp [hs, bind, Except.bind] at h
  | some span =>
  cases hp : unit.parens? call with
  | none => simp [hs, hp, bind, Except.bind] at h
  | some parens =>
  cases ha : unit.span? arg.id with
  | none => simp [hs, hp, ha, bind, Except.bind] at h
  | some argSpan =>
  simp only [hs, hp, ha, bind, Except.bind, pure, Except.pure] at h
  split at h
  · rename_i hgoes
    cases h
    exact ⟨⟨span, parens, argSpan, rfl, rfl, rfl, by simp [Cut.remnant, Remnant.removal]⟩,
      Or.inl ⟨hgoes, rfl⟩⟩
  · rename_i hgoes
    split at h
    · cases h
    · rename_i trial hrun
      cases h
      refine ⟨⟨span, parens, argSpan, rfl, rfl, rfl, ?_⟩,
        Or.inr ⟨by simpa using hgoes, trial, hrun, rfl⟩⟩
      cases hreq : trial.required <;> simp [Cut.remnant, Remnant.removal, hreq]

end Detect

/-! ## Detection -/

section

variable {unit : SourceUnit} {options : DetectOptions} {found : Findings}

theorem detect_ok (h : detect unit options = .ok found) :
    ∃ ks, List.Forall₂ (fun c k => unit.cut options c = .ok k) (unit.conversions options) ks ∧
      found.removals = .ofList (ks.map (·.removal)) := by
  unfold detect at h
  cases hcuts : Detect.cuts unit (unit.redundant options) (AnyNode.visits ⟨unit.file⟩ []) with
  | error e =>
    unfold SourceUnit.redundant at hcuts
    simp [hcuts, bind, Except.bind] at h
  | ok ks =>
    refine ⟨ks, (Detect.cuts_eq_ok_iff _ _ _ _).mp hcuts, ?_⟩
    unfold SourceUnit.redundant at hcuts
    simp only [hcuts, bind, Except.bind, pure, Except.pure, Except.ok.injEq] at h
    rw [← h]

theorem exists_cut (h : detect unit options = .ok found) {c : Conversion}
    (hc : c ∈ unit.conversions options) : ∃ k, unit.cut options c = .ok k := by
  obtain ⟨ks, hks, -⟩ := detect_ok h
  generalize unit.conversions options = cs at hks hc
  induction hks with
  | nil => simp at hc
  | cons hck _ ih =>
    rcases List.mem_cons.mp hc with rfl | hc
    · exact ⟨_, hck⟩
    · exact ih hc

theorem mem_removals_iff (h : detect unit options = .ok found) {r : Removal} :
    r ∈ found.removals.toList ↔
      ∃ c ∈ unit.conversions options, ∃ k, unit.cut options c = .ok k ∧ k.removal = r := by
  obtain ⟨ks, hks, hfound⟩ := detect_ok h
  rw [hfound, RemovalSet.mem_ofList, List.mem_map]
  clear hfound
  generalize unit.conversions options = cs at hks
  induction hks with
  | nil => simp
  | cons hck _ ih =>
    simp only [List.mem_cons, exists_eq_or_imp, ih]
    simp [hck]

theorem visit_of_conversion (hids : AnyNode.DistinctIds ⟨unit.file⟩) {c : Conversion}
    (hc : c ∈ unit.conversions options) :
    ⟨⟨.call c.id c.callee [c.arg] false⟩, c.ancestors⟩ ∈ AnyNode.visits ⟨unit.file⟩ [] := by
  obtain ⟨v, hv, hconv⟩ := List.mem_filterMap.mp hc
  unfold Visit.conversion? at hconv
  split at hconv
  · rename_i id callee arg spread ancestors
    split at hconv
    · rename_i hmem
      cases hconv
      obtain ⟨callee', arg', ancestors', hv'⟩ :=
        Detect.exists_visit_of_redundant (List.contains_iff_mem.mp hmem)
      -- The first walk met this id only once.
      have heq := hids.visit_eq hv hv' rfl
      cases heq
      exact hv
    · cases hconv
  · cases hconv

theorem Conversion.node_mem (hids : AnyNode.DistinctIds ⟨unit.file⟩) {c : Conversion}
    (hc : c ∈ unit.conversions options) : c.node ∈ AnyNode.nodes ⟨unit.file⟩ :=
  AnyNode.mem_nodes_of_visit (visit_of_conversion hids hc)

theorem redundant_of_conversion {c : Conversion} (hc : c ∈ unit.conversions options) :
    c.id ∈ unit.redundant options := by
  obtain ⟨v, hv, hconv⟩ := List.mem_filterMap.mp hc
  unfold Visit.conversion? at hconv
  split at hconv
  · split at hconv
    · rename_i hmem
      cases hconv
      exact List.contains_iff_mem.mp hmem
    · cases hconv
  · cases hconv

theorem conversion_of_visit {id : NodeId} {callee arg : Expr} {spread : Bool}
    {ancestors : List AnyNode}
    (hv : ⟨⟨.call id callee [arg] spread⟩, ancestors⟩ ∈ AnyNode.visits ⟨unit.file⟩ [])
    (hid : id ∈ unit.redundant options) :
    ⟨id, callee, arg, ancestors⟩ ∈ unit.conversions options := by
  refine List.mem_filterMap.mpr ⟨_, hv, ?_⟩
  exact if_pos (List.contains_iff_mem.mpr hid)

theorem conversion_eq_of_id (hids : AnyNode.DistinctIds ⟨unit.file⟩) {c d : Conversion}
    (hc : c ∈ unit.conversions options) (hd : d ∈ unit.conversions options) (h : c.id = d.id) :
    c = d := by
  have heq := hids.visit_eq (visit_of_conversion hids hc) (visit_of_conversion hids hd) h
  obtain ⟨_, _, _, _⟩ := c
  obtain ⟨_, _, _, _⟩ := d
  cases heq
  rfl

theorem cutIn_eq_some_iff (hids : AnyNode.DistinctIds ⟨unit.file⟩) {removals : RemovalSet}
    {id : NodeId} {k : Detect.Cut} :
    unit.cutIn options removals id = some k ↔
      ∃ c ∈ unit.conversions options, c.id = id ∧ unit.cut options c = .ok k ∧
        k.removal ∈ removals.toList := by
  have hsound : ∀ {k}, unit.cutIn options removals id = some k →
      ∃ c ∈ unit.conversions options, c.id = id ∧ unit.cut options c = .ok k ∧
        k.removal ∈ removals.toList := by
    intro k h
    obtain ⟨c, hc, hk⟩ := List.exists_of_findSome?_eq_some h
    split at hk
    · rename_i k' hk'
      split at hk
      · rename_i hcond
        simp only [Bool.and_eq_true, decide_eq_true_eq, RemovalSet.contains_iff] at hcond
        cases hk
        exact ⟨c, hc, hcond.1, hk', hcond.2⟩
      · cases hk
    · cases hk
  refine ⟨hsound, ?_⟩
  rintro ⟨c, hc, rfl, hk, hmem⟩
  -- One conversion has the id, so the search ends at no other one.
  cases hcut : unit.cutIn options removals c.id with
  | none =>
    have := List.findSome?_eq_none_iff.mp hcut c hc
    simp [hk, RemovalSet.contains_iff.mpr hmem] at this
  | some l =>
    obtain ⟨d, hd, hid, hl, -⟩ := hsound hcut
    obtain rfl := conversion_eq_of_id hids hd hc hid
    rw [hk, Except.ok.injEq] at hl
    rw [hl]

theorem plan_eq_some_iff (hids : AnyNode.DistinctIds ⟨unit.file⟩) {removals : RemovalSet}
    {id : NodeId} {r : Remnant} :
    unit.plan options removals id = some r ↔
      ∃ c ∈ unit.conversions options, c.id = id ∧
        ∃ k, unit.cut options c = .ok k ∧ k.removal ∈ removals.toList ∧ k.remnant = r := by
  rw [SourceUnit.plan, Option.map_eq_some_iff]
  simp only [cutIn_eq_some_iff hids]
  constructor
  · rintro ⟨k, ⟨c, hc, hid, hk, hmem⟩, hr⟩
    exact ⟨c, hc, hid, k, hk, hmem, hr⟩
  · rintro ⟨c, hc, hid, k, hk, hmem, hr⟩
    exact ⟨k, ⟨c, hc, hid, hk, hmem⟩, hr⟩

theorem plan_ne_none_iff (hids : AnyNode.DistinctIds ⟨unit.file⟩)
    (h : detect unit options = .ok found) {id : NodeId} :
    unit.plan options found.removals id ≠ none ↔ ∃ c ∈ unit.conversions options, c.id = id := by
  rw [Option.ne_none_iff_exists']
  constructor
  · rintro ⟨r, hr⟩
    obtain ⟨c, hc, hid, -⟩ := (plan_eq_some_iff hids).mp hr
    exact ⟨c, hc, hid⟩
  · rintro ⟨c, hc, rfl⟩
    obtain ⟨k, hk⟩ := exists_cut h hc
    exact ⟨k.remnant, (plan_eq_some_iff hids).mpr
      ⟨c, hc, rfl, k, hk, (mem_removals_iff h).mpr ⟨c, hc, k, hk, rfl⟩, rfl⟩⟩

theorem calleesStay_of_all (hids : AnyNode.DistinctIds ⟨unit.file⟩)
    (h : detect unit options = .ok found)
    (hall : unit.file.CalleesStay (unit.plan options found.removals)) (removals : RemovalSet) :
    unit.file.CalleesStay (unit.plan options removals) := by
  have hle : ∀ {id}, unit.plan options removals id ≠ none →
      unit.plan options found.removals id ≠ none := by
    intro id hid
    obtain ⟨r, hr⟩ := Option.ne_none_iff_exists'.mp hid
    obtain ⟨c, hc, rfl, -⟩ := (plan_eq_some_iff hids).mp hr
    exact (plan_ne_none_iff hids h).mpr ⟨c, hc, rfl⟩
  intro id callee arg spread hmem hid x hx
  by_contra hxid
  exact hle hxid (hall id callee arg spread hmem (hle hid) x hx)

end

theorem exists_of_map_eq_ok {ε α β : Type} {x : Except ε α} {f : α → β} {b : β}
    (h : x.map f = .ok b) : ∃ a, x = .ok a ∧ f a = b := by
  cases x with
  | error e => cases h
  | ok a => exact ⟨a, rfl, Except.ok.inj h⟩

theorem exists_found {unit : SourceUnit} {options : DetectOptions} {rs : List Removal}
    (hrs : rs.Pairwise fun a b => a.key < b.key)
    (h : (detect unit options).map (fun found => found.removals.toList) = .ok rs) :
    ∃ found, detect unit options = .ok found ∧ found.removals = ⟨rs, hrs⟩ := by
  obtain ⟨⟨⟨_, _⟩, notes⟩, hfound, rfl⟩ := exists_of_map_eq_ok h
  exact ⟨_, hfound, rfl⟩

/-- A file with one function, printed as it stands. -/
def SourceUnit.ofBody (stmts : List Stmt) (types : List (NodeId × TypeEntry)) : SourceUnit :=
  .ofFile ⟨"p/f.go"⟩
    (.file 100 ⟨101, "p"⟩
      [.func 102 none ⟨103, "f"⟩ (.signature 104 [] []) (some (.block 105 stmts))])
    ⟨.ofList types, .empty⟩

/-- `_ = -int(int(-x))`: two conversions, one directly inside the other. -/
def negatedChain : SourceUnit := .ofBody
  [.assign 1 [.ident 2 "_"] .assign
    [.unary 3 .neg (.call 4 (.ident 5 "int")
      [.call 6 (.ident 7 "int") [.unary 8 .neg (.ident 9 "x")] false] false)]]
  [(5, ⟨.type, .basic .int⟩), (7, ⟨.type, .basic .int⟩), (6, ⟨.value, .basic .int⟩),
    (8, ⟨.value, .basic .int⟩)]

theorem distinctIds_negatedChain : AnyNode.DistinctIds ⟨negatedChain.file⟩ := by decide +kernel

theorem removals_negatedChain :
    ∃ found, detect negatedChain .default = .ok found ∧
      found.removals = ⟨[⟨31, [⟨28, 32⟩, ⟨39, 40⟩]⟩, ⟨35, [⟨32, 35⟩]⟩], by decide⟩ :=
  exists_found _ (by decide +kernel)

end ConvSweep
