import ConvSweep.Merge
import ConvSweep.Proofs.EditSets

/-! # Merging over configurations

The sets of the configurations may be intersected in any order: a plan says in which. Whatever the
plan, the merge keeps a removal of a path exactly if every configuration agrees on it.
-/

namespace ConvSweep.Analysis

/-- The configuration is loaded, and every file of it can be searched. -/
def Ready (options : DetectOptions) (frontEnd : FrontEnd) (config : BuildConfig) : Prop :=
  ∃ units, frontEnd config .none = .ok units ∧ ∀ u ∈ units, ∃ found, detect u options = .ok found

/-- The configuration loads the path, and every load of the path reports the removal. -/
def AgreesOn (options : DetectOptions) (frontEnd : FrontEnd) (p : Path) (r : Removal)
    (config : BuildConfig) : Prop :=
  ∃ units, frontEnd config .none = .ok units ∧ (∃ u ∈ units, u.path.key = p.key) ∧
    ∀ u ∈ units, u.path.key = p.key →
      ∃ found, detect u options = .ok found ∧ r ∈ found.removals.toList

/-- Both front ends load the same files for the configuration, perhaps in another order. -/
def SameUnits (frontEnd frontEnd' : FrontEnd) (config : BuildConfig) : Prop :=
  ∃ units units', frontEnd config .none = .ok units ∧ frontEnd' config .none = .ok units' ∧
    units.Perm units'

variable {a : Analysis} {options : DetectOptions} {frontEnd frontEnd' : FrontEnd}
  {config : BuildConfig} {p : Path} {r : Removal}

theorem Ready.of_sameUnits (h : Ready options frontEnd config)
    (hsame : SameUnits frontEnd frontEnd' config) : Ready options frontEnd' config := by
  obtain ⟨units, hload, hfound⟩ := h
  obtain ⟨us, us', hus, hus', hperm⟩ := hsame
  rw [hload, Except.ok.injEq] at hus
  subst hus
  exact ⟨us', hus', fun u hu => hfound u (hperm.mem_iff.mpr hu)⟩

theorem agreesOn_congr (hsame : SameUnits frontEnd frontEnd' config) :
    AgreesOn options frontEnd p r config ↔ AgreesOn options frontEnd' p r config := by
  obtain ⟨us, us', hus, hus', hperm⟩ := hsame
  unfold AgreesOn
  simp only [hus, hus', Except.ok.injEq, exists_eq_left', hperm.mem_iff]

/-! ## One configuration -/

/-- The removals of a file, none if it cannot be searched. -/
def removalsOf (options : DetectOptions) (unit : SourceUnit) : RemovalSet :=
  match detect unit options with
  | .ok found => found.removals
  | .error _ => .empty

theorem report_eq {unit : SourceUnit} {found : Findings} (h : detect unit options = .ok found) :
    report options unit = .ok (unit.path, removalsOf options unit) := by
  unfold report removalsOf
  rw [h]

theorem mapM_eq_ok {ε α β : Type} {f : α → Except ε β} {g : α → β} {xs : List α}
    (h : ∀ x ∈ xs, f x = .ok (g x)) : xs.mapM f = .ok (xs.map g) := by
  induction xs with
  | nil => rfl
  | cons x xs ih =>
    rw [List.mapM_cons, h x List.mem_cons_self, ih fun y hy => h y (List.mem_cons_of_mem _ hy)]
    rfl

theorem has_foldl_insertFile {reports : List (Path × RemovalSet)} {set : EditSet} :
    (reports.foldl (fun set x => set.insertFile x.1 x.2) set).Has p r ↔
      ((∃ s, set.entry? p = some s ∧ r ∈ s.toList) ∨
        set.entry? p = none ∧ ∃ x ∈ reports, x.1.key = p.key) ∧
      ∀ x ∈ reports, x.1.key = p.key → r ∈ x.2.toList := by
  induction reports generalizing set with
  | nil => simp [EditSet.has_iff_exists_entry]
  | cons x reports ih =>
    rw [List.foldl_cons, ih, EditSet.entry?_insertFile]
    -- The first report of a path makes its entry, every later one narrows it down.
    by_cases hx : x.1.key = p.key
    · rw [EditSet.entry?_congr hx]
      cases hentry : set.entry? p with
      | none => simp [hx]
      | some s => simp [hx, RemovalSet.mem_inter, and_assoc]
    · simp [hx]

theorem computeEdits_ok (h : Ready a.options frontEnd config) :
    ∃ set, a.computeEdits frontEnd config = .ok set ∧
      ∀ p r, set.Has p r ↔ AgreesOn a.options frontEnd p r config := by
  obtain ⟨units, hload, hfound⟩ := h
  have hreports : units.mapM (report a.options) =
      .ok (units.map fun u => (u.path, removalsOf a.options u)) := by
    apply mapM_eq_ok
    intro u hu
    obtain ⟨found, hu⟩ := hfound u hu
    exact report_eq hu
  refine ⟨(units.map fun u => (u.path, removalsOf a.options u)).foldl
    (fun set x => set.insertFile x.1 x.2) .empty, ?_, ?_⟩
  · unfold computeEdits
    rw [hload]
    simp only [hreports]
    rfl
  · intro p r
    have hremovals : ∀ u ∈ units, (r ∈ (removalsOf a.options u).toList ↔
        ∃ found, detect u a.options = .ok found ∧ r ∈ found.removals.toList) := by
      intro u hu
      obtain ⟨found, hu⟩ := hfound u hu
      simp [removalsOf, hu]
    refine has_foldl_insertFile.trans ?_
    simp only [EditSet.empty, EditSet.entry?, List.find?_nil, Option.map_none, reduceCtorEq,
      false_and, exists_false, true_and, false_or, List.mem_map, exists_exists_and_eq_and,
      forall_exists_index, and_imp, forall_apply_eq_imp_iff₂]
    unfold AgreesOn
    simp only [hload, Except.ok.injEq, exists_eq_left']
    refine and_congr_right fun _ => forall₂_congr fun u hu => ?_
    rw [hremovals u hu]

theorem computeEdits_error {e : FrontEndError} (h : frontEnd config .none = .error e) :
    a.computeEdits frontEnd config = .error (.load config e) := by
  unfold computeEdits
  rw [h]

/-! ## Plans -/

namespace Plan

variable {plan : Plan}

/-- The configurations of a plan, from left to right. -/
def configs : Plan → List BuildConfig
  | one config => [config]
  | both left right => left.configs ++ right.configs

theorem run_ok (h : ∀ c ∈ plan.configs, Ready a.options frontEnd c) :
    ∃ set, plan.run a frontEnd = .ok set ∧
      ∀ p r, set.Has p r ↔ ∀ c ∈ plan.configs, AgreesOn a.options frontEnd p r c := by
  induction plan with
  | one config =>
    obtain ⟨set, hset, hhas⟩ := computeEdits_ok (h config List.mem_cons_self)
    exact ⟨set, hset, by simpa [configs] using hhas⟩
  | both left right ihl ihr =>
    obtain ⟨l, hl, hlhas⟩ := ihl fun c hc => h c (List.mem_append_left _ hc)
    obtain ⟨r, hr, hrhas⟩ := ihr fun c hc => h c (List.mem_append_right _ hc)
    refine ⟨l.inter r, ?_, ?_⟩
    · unfold run
      rw [hl, hr]
      rfl
    · intro p x
      simp only [EditSet.has_inter, hlhas, hrhas, configs, List.mem_append, or_imp, forall_and]

theorem run_error {e : FrontEndError} (hc : config ∈ plan.configs)
    (he : frontEnd config .none = .error e) : ∃ e', plan.run a frontEnd = .error e' := by
  induction plan with
  | one c =>
    obtain rfl := List.mem_singleton.mp hc
    exact ⟨_, computeEdits_error he⟩
  | both left right ihl ihr =>
    unfold run
    cases hl : left.run a frontEnd with
    | error e' => exact ⟨e', rfl⟩
    | ok l =>
      rcases List.mem_append.mp hc with hc | hc
      · obtain ⟨e', he'⟩ := ihl hc
        rw [hl] at he'
        cases he'
      · obtain ⟨e', he'⟩ := ihr hc
        rw [he']
        exact ⟨e', rfl⟩

/-- The plan that takes one configuration after the other. -/
def inOrder (first : BuildConfig) (rest : List BuildConfig) : Plan :=
  rest.foldl (fun plan config => .both plan (.one config)) (.one first)

theorem configs_inOrder (first : BuildConfig) (rest : List BuildConfig) :
    (inOrder first rest).configs = first :: rest := by
  have h : ∀ plan : Plan, (rest.foldl (fun plan config => .both plan (.one config)) plan).configs =
      plan.configs ++ rest := by
    induction rest with
    | nil => simp
    | cons c rest ih =>
      intro plan
      rw [List.foldl_cons, ih]
      simp [configs]
  exact h (.one first)

theorem mergeInOrder_eq_run {first : BuildConfig} {rest : List BuildConfig}
    (h : a.configs = first :: rest) :
    a.mergeInOrder frontEnd = (inOrder first rest).run a frontEnd := by
  have hfold : ∀ plan : Plan, (do
      let start ← plan.run a frontEnd
      rest.foldlM (fun merged config => do
        return merged.inter (← a.computeEdits frontEnd config)) start) =
      (rest.foldl (fun plan config => .both plan (.one config)) plan).run a frontEnd := by
    clear h
    induction rest with
    | nil => intro plan; simp
    | cons c rest ih =>
      intro plan
      rw [List.foldl_cons, ← ih]
      simp [run]
  unfold mergeInOrder
  rw [h]
  exact hfold (.one first)

theorem exists_halves {configs : List BuildConfig} (h : configs ≠ []) :
    ∃ plan, halves configs = some plan ∧ plan.configs = configs := by
  induction hlen : configs.length using Nat.strongRecOn generalizing configs with
  | _ n ih =>
    subst hlen
    rcases configs with _ | ⟨c, _ | ⟨d, rest⟩⟩
    · exact absurd rfl h
    · exact ⟨.one c, by simp [halves], rfl⟩
    · have htake : (c :: d :: rest).take ((c :: d :: rest).length / 2) ≠ [] := by
        simp
      have hdrop : (c :: d :: rest).drop ((c :: d :: rest).length / 2) ≠ [] := by
        simp
        omega
      obtain ⟨left, hleft, hl⟩ := ih _ (by simp; omega) htake rfl
      obtain ⟨right, hright, hr⟩ := ih _ (by simp; omega) hdrop rfl
      refine ⟨.both left right, ?_, ?_⟩
      · rw [halves]
        simp only [hleft, hright]
      · rw [Plan.configs, hl, hr, List.take_append_drop]

end Plan

theorem exists_plans (h : a.configs ≠ []) (frontEnd : FrontEnd) :
    (∃ plan : Plan, plan.configs = a.configs ∧ a.mergeInOrder frontEnd = plan.run a frontEnd) ∧
      ∃ plan : Plan, plan.configs = a.configs ∧ a.merge frontEnd = plan.run a frontEnd := by
  obtain ⟨first, rest, hconfigs⟩ := List.exists_cons_of_ne_nil h
  obtain ⟨plan, hhalves, hplan⟩ := Plan.exists_halves h
  refine ⟨⟨_, ?_, Plan.mergeInOrder_eq_run hconfigs⟩, plan, hplan, ?_⟩
  · rw [Plan.configs_inOrder, hconfigs]
  · unfold merge
    rw [hhalves]

/-- The merge succeeds where every configuration does, and keeps exactly the removals that all of them
agree on. So the result stays the same if configurations are repeated or come in another order, if a
configuration loads its files in another order, and for every plan of the intersections. If some
configuration cannot be loaded, there is no merge. -/
theorem merge_keeps_agreed_removals (a : Analysis) (frontEnd : FrontEnd) :
    (a.configs ≠ [] → (∀ c ∈ a.configs, Ready a.options frontEnd c) →
      ∃ set, a.mergeInOrder frontEnd = .ok set ∧
        (∀ p r, set.Has p r ↔ ∀ c ∈ a.configs, AgreesOn a.options frontEnd p r c) ∧
        ∀ (b : Analysis) (frontEnd' : FrontEnd), b.options = a.options →
          (∀ c, c ∈ b.configs ↔ c ∈ a.configs) →
          (∀ c ∈ a.configs, SameUnits frontEnd frontEnd' c) →
          (∃ set', b.mergeInOrder frontEnd' = .ok set' ∧ set'.same set = true) ∧
          (∃ set', b.merge frontEnd' = .ok set' ∧ set'.same set = true) ∧
          ∀ plan : Plan, (∀ c, c ∈ plan.configs ↔ c ∈ a.configs) →
            ∃ set', plan.run b frontEnd' = .ok set' ∧ set'.same set = true) ∧
    ((∃ c ∈ a.configs, ∃ e, frontEnd c .none = .error e) →
      (∃ e, a.mergeInOrder frontEnd = .error e) ∧ (∃ e, a.merge frontEnd = .error e) ∧
      ∀ plan : Plan, (∀ c ∈ a.configs, c ∈ plan.configs) →
        ∃ e, plan.run a frontEnd = .error e) := by
  constructor
  · intro hne hready
    obtain ⟨⟨plan, hplan, hrun⟩, -⟩ := exists_plans hne frontEnd
    obtain ⟨set, hset, hhas⟩ := Plan.run_ok (hplan ▸ hready)
    rw [hplan] at hhas
    refine ⟨set, hrun.trans hset, hhas, ?_⟩
    intro b frontEnd' hoptions hconfigs hsame
    -- The removals of a plan depend only on which configurations are in it.
    have hany : ∀ plan : Plan, (∀ c, c ∈ plan.configs ↔ c ∈ a.configs) →
        ∃ set', plan.run b frontEnd' = .ok set' ∧ set'.same set = true := by
      intro plan hplan
      have hready' : ∀ c ∈ plan.configs, Ready b.options frontEnd' c := by
        intro c hc
        rw [hplan] at hc
        exact hoptions ▸ (hready c hc).of_sameUnits (hsame c hc)
      obtain ⟨set', hset', hhas'⟩ := Plan.run_ok hready'
      refine ⟨set', hset', EditSet.same_iff.mpr fun p r => ?_⟩
      rw [hhas', hhas, hoptions]
      simp only [hplan]
      exact forall₂_congr fun c hc => (agreesOn_congr (hsame c hc)).symm
    have hne' : b.configs ≠ [] := by
      obtain ⟨c, hc⟩ := List.exists_mem_of_ne_nil _ hne
      exact List.ne_nil_of_mem ((hconfigs c).mpr hc)
    obtain ⟨⟨plan, hplan, hrun⟩, plan', hplan', hrun'⟩ := exists_plans hne' frontEnd'
    rw [hrun, hrun']
    exact ⟨hany plan (hplan ▸ hconfigs), hany plan' (hplan' ▸ hconfigs), hany⟩
  · rintro ⟨c, hc, e, he⟩
    obtain ⟨⟨plan, hplan, hrun⟩, plan', hplan', hrun'⟩ :=
      exists_plans (List.ne_nil_of_mem hc) frontEnd
    rw [hrun, hrun']
    exact ⟨Plan.run_error (hplan ▸ hc) he, Plan.run_error (hplan' ▸ hc) he,
      fun plan hplan => Plan.run_error (hplan c hc) he⟩

/-- `_ = -int(int(-x))` where the inner conversion narrows a wider `x`. -/
def narrowedChain : SourceUnit :=
  { negatedChain with
    info := ⟨.ofList [(5, ⟨.type, .basic .int⟩), (7, ⟨.type, .basic .int⟩),
      (6, ⟨.value, .basic .int⟩), (8, ⟨.value, .basic .int64⟩)], .empty⟩ }

/-- The chain is loaded for Linux, the narrowed one for Windows; nothing else can be loaded. -/
def chainFrontEnd : FrontEnd := fun config _ =>
  if config.os = "linux" then .ok [negatedChain]
  else if config.os = "windows" then .ok [narrowedChain]
  else .error (.typeCheck "p" "unknown system")

theorem removals_narrowedChain :
    ∃ found, detect narrowedChain .default = .ok found ∧
      found.removals = ⟨[⟨31, [⟨28, 32⟩, ⟨39, 40⟩]⟩], List.pairwise_singleton _ _⟩ :=
  exists_found _ (by decide +kernel)

/-- Both systems agree on the outer conversion only, and a third one makes the merge fail. -/
theorem chain_merge_keeps_outer :
    (∃ set, mergeInOrder ⟨.default, [⟨"linux", "amd64", false⟩, ⟨"windows", "amd64", false⟩]⟩
        chainFrontEnd = .ok set ∧
      set.Has ⟨"p//f.go"⟩ ⟨31, [⟨28, 32⟩, ⟨39, 40⟩]⟩ ∧ ¬ set.Has ⟨"p/f.go"⟩ ⟨35, [⟨32, 35⟩]⟩) ∧
    ∃ e, mergeInOrder ⟨.default, [⟨"linux", "amd64", false⟩, ⟨"plan9", "amd64", false⟩]⟩
      chainFrontEnd = .error e := by
  obtain ⟨found, hchain, hfound⟩ := removals_negatedChain
  obtain ⟨found', hchain', hfound'⟩ := removals_narrowedChain
  have hpath : (⟨"p/f.go"⟩ : Path).key = (⟨"p//f.go"⟩ : Path).key := rfl
  have hlinux : chainFrontEnd ⟨"linux", "amd64", false⟩ .none = .ok [negatedChain] := rfl
  have hwindows : chainFrontEnd ⟨"windows", "amd64", false⟩ .none = .ok [narrowedChain] := rfl
  constructor
  · obtain ⟨set, hset, hhas, -⟩ := (merge_keeps_agreed_removals
      ⟨.default, [⟨"linux", "amd64", false⟩, ⟨"windows", "amd64", false⟩]⟩ chainFrontEnd).1
      (List.cons_ne_nil _ _) (by
        simp only [List.forall_mem_cons, List.not_mem_nil, false_implies, implies_true, and_true]
        exact ⟨⟨_, hlinux, by simp [hchain]⟩, ⟨_, hwindows, by simp [hchain']⟩⟩)
    refine ⟨set, hset, ?_, ?_⟩
    · rw [hhas]
      simp only [List.forall_mem_cons, List.not_mem_nil, false_implies, implies_true, and_true]
      exact ⟨⟨_, hlinux, ⟨_, List.mem_cons_self, hpath⟩, by simp [hchain, hfound]⟩,
        ⟨_, hwindows, ⟨_, List.mem_cons_self, hpath⟩, by simp [hchain', hfound']⟩⟩
    · rw [hhas]
      intro h
      obtain ⟨units, hload, -, hall⟩ := h _ (List.mem_cons_of_mem _ List.mem_cons_self)
      rw [hwindows, Except.ok.injEq] at hload
      subst hload
      obtain ⟨_, hdetect, hr⟩ := hall narrowedChain List.mem_cons_self rfl
      rw [hchain', Except.ok.injEq] at hdetect
      simp [← hdetect, hfound'] at hr
  · exact ((merge_keeps_agreed_removals
      ⟨.default, [⟨"linux", "amd64", false⟩, ⟨"plan9", "amd64", false⟩]⟩ chainFrontEnd).2
      ⟨_, List.mem_cons_of_mem _ List.mem_cons_self, _, rfl⟩).1

end ConvSweep.Analysis
