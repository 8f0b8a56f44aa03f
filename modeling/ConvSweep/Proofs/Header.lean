import ConvSweep.Proofs.Chains
import ConvSweep.Proofs.Leaves

/-! # Composite literals in headers

A composite literal of a named type must not stand bare in the header of a statement, where its
brace would open the body. Taking conversions out keeps that for every single chain of them, but not
for several chains at once.
-/

namespace ConvSweep

open AnyNode Detect

/-- Whether the expression shows a composite literal of a named type outside brackets. -/
def Node.exposes (e : Expr) : Bool := (e.face fun _ => none).exposesComposite

/-- No expression that is printed bare into a header exposes a composite literal. -/
def HeaderSafe (n : AnyNode) (ctx : Ctx) : Prop :=
  ∀ x ctx', Shows n ctx ⟨x⟩ ctx' → ctx'.inHeader = true → x.isParen = false → x.exposes = false

/-! ## Literals -/

/-- A composite literal of a named type. -/
def Node.isNamedLiteral : Expr → Bool
  | .composite _ type _ => type.any isTypeName
  | _ => false

theorem Node.exposes_of_isNamedLiteral {e : Expr} (h : e.isNamedLiteral = true) :
    e.exposes = true := by
  cases e <;> simp [isNamedLiteral] at h
  simpa [exposes, Node.face] using h

theorem Node.exposes_cases {e : Expr} (h : e.exposes = true) (ctx : Ctx) :
    e.isNamedLiteral = true ∨ ∃ k ctx' x, .sub k ctx' ⟨x⟩ ∈ e.written ctx ∧
      ctx'.inHeader = ctx.inHeader ∧ Node.exposes x = true := by
  cases e
  case composite id type elts => exact Or.inl (by simpa [exposes, isNamedLiteral, Node.face] using h)
  case binary id x op y =>
    right
    simp only [exposes, Node.face, Bool.or_eq_true] at h
    rcases h with h | h
    · exact ⟨0, ctx.prec op.precedence, x, List.mem_cons_self, rfl, h⟩
    · exact ⟨0, ctx.operand (op.precedence + 1) op.spelling, y,
        List.mem_cons_of_mem _ (List.mem_cons_of_mem _ List.mem_cons_self), rfl, h⟩
  case funcType id params results => cases results <;> simp [exposes, Node.face, Face.closed] at h
  all_goals simp only [exposes, Node.face, Face.closed, Bool.false_eq_true] at h
  all_goals right
  case star id x =>
    exact ⟨0, ctx.operand unaryPrec "*", x, List.mem_cons_of_mem _ List.mem_cons_self, rfl, h⟩
  case unary id op x =>
    exact ⟨0, ctx.operand unaryPrec op.spelling, x, List.mem_cons_of_mem _ List.mem_cons_self, rfl, h⟩
  all_goals exact ⟨0, ctx.prec primaryPrec, _, List.mem_cons_self, rfl, h⟩

theorem Node.exists_literal_of_exposes {e : Expr} (h : e.exposes = true) {ctx : Ctx}
    (hctx : ctx.inHeader = true) :
    ∃ l ctx', Shows ⟨e⟩ ctx ⟨l⟩ ctx' ∧ ctx'.inHeader = true ∧ Node.isNamedLiteral l = true := by
  generalize hn : (⟨e⟩ : AnyNode) = n
  induction n using AnyNode.print_induct generalizing e ctx with
  | step n ih =>
    subst hn
    rcases Node.exposes_cases h ctx with hlit | ⟨k, ctx₁, x, hx, hctx₁, hexp⟩
    · exact ⟨e, ctx, .self _ _, hctx, hlit⟩
    · obtain ⟨l, ctx', hl, hctx', hlit⟩ := ih _ _ _ _ _ hx hexp (hctx₁.trans hctx) rfl
      exact ⟨l, ctx', .piece hx hl, hctx', hlit⟩

theorem headerSafe_iff {n : AnyNode} {ctx : Ctx} :
    HeaderSafe n ctx ↔ ∀ l ctx', Shows n ctx ⟨l⟩ ctx' → ctx'.inHeader = true →
      l.isNamedLiteral = false := by
  constructor
  · intro h l ctx' hl hctx'
    by_contra hlit
    rw [Bool.not_eq_false] at hlit
    have hparen : l.isParen = false := by
      cases l <;> first | rfl | simp [Node.isNamedLiteral] at hlit
    have hexp := h l ctx' hl hctx' hparen
    rw [Node.exposes_of_isNamedLiteral hlit] at hexp
    cases hexp
  · intro h x ctx' hx hctx' _
    by_contra hexp
    rw [Bool.not_eq_false] at hexp
    obtain ⟨l, ctx'', hl, hctx'', hlit⟩ := Node.exists_literal_of_exposes hexp hctx'
    rw [h l ctx'' (hx.trans hl) hctx''] at hlit
    cases hlit

def AnyNode.isNamedLiteral : AnyNode → Bool
  | ⟨(e : Node .expr)⟩ => e.isNamedLiteral
  | _ => false

instance (n : AnyNode) (ctx : Ctx) : Decidable (HeaderSafe n ctx) :=
  decidable_of_iff ((n.slots ctx).all (fun s => !(s.2.inHeader && s.1.isNamedLiteral)) = true) <| by
    rw [headerSafe_iff]
    simp only [List.all_eq_true, Prod.forall, mem_slots, Bool.not_eq_true', Bool.and_eq_false_iff]
    constructor
    · intro h l ctx' hl hctx'
      exact (h ⟨l⟩ ctx' hl).resolve_left (by simp [hctx'])
    · intro h x ctx' hx
      cases hctx' : ctx'.inHeader with
      | false => exact Or.inl rfl
      | true =>
        right
        unfold AnyNode.isNamedLiteral
        split
        · exact h _ ctx' hx hctx'
        · rfl

theorem HeaderSafe.of_shows {n x : AnyNode} {ctx ctx' : Ctx} (h : HeaderSafe n ctx)
    (hx : Shows n ctx x ctx') : HeaderSafe x ctx' := fun y ctx'' hy => h y ctx'' (hx.trans hy)

theorem HeaderSafe.congr {e : Expr} {ctx ctx' : Ctx} (h : HeaderSafe ⟨e⟩ ctx)
    (hctx : ctx'.inHeader = ctx.inHeader) : HeaderSafe ⟨e⟩ ctx' := by
  intro x ctx'' hx hctx'' hparen
  cases hx with
  | self => exact h e ctx (.self _ _) (hctx ▸ hctx'') hparen
  | piece hm hx =>
    have hprec : ctx'.prec 0 = ctx.prec 0 := by rw [Ctx.prec, hctx]; rfl
    have hwritten : e.written ctx' = e.written ctx := by
      rw [Node.written_prec (by simp), hprec, ← Node.written_prec (by simp)]
    rw [hwritten] at hm
    exact h x ctx'' (.piece hm hx) hctx'' hparen

/-! ## Pruned trees -/

variable {plan : Plan} {root : AnyNode}

/-- A conversion that goes bare in a header leaves nothing unsafe there. -/
def StripsSafely (plan : Plan) (root : AnyNode) : Prop :=
  ∀ id callee arg spread ctx, Shows root .plain ⟨.call id callee [arg] spread⟩ ctx →
    ctx.inHeader = true → OutsideCallees plan root ⟨.call id callee [arg] spread⟩ →
    plan id = some .bare → HeaderSafe ⟨arg.prune plan⟩ .header

/-- No composite literal in a header turns into one of a named type. -/
def LiteralTypesStay (plan : Plan) (root : AnyNode) : Prop :=
  ∀ id type elts ctx, Shows root .plain ⟨.composite id (some type) elts⟩ ctx →
    ctx.inHeader = true → OutsideCallees plan root ⟨.composite id (some type) elts⟩ →
    type.isTypeName = false → (type.prune plan).isTypeName = false

theorem Node.exists_of_isNamedLiteral_prune {l : Expr} (h : (l.prune plan).isNamedLiteral = true)
    (hbare : l.remnant? plan ≠ some .bare) :
    ∃ id type elts, l = .composite id (some type) elts ∧ (type.prune plan).isTypeName = true := by
  cases l
  case composite id type elts =>
    cases type with
    | none => simp [Node.prune, isNamedLiteral] at h
    | some type => exact ⟨id, type, elts, rfl, by simpa [Node.prune, isNamedLiteral] using h⟩
  case call id callee args spread =>
    rcases args with _ | ⟨arg, _ | ⟨b, args⟩⟩
    · simp [Node.prune, isNamedLiteral] at h
    · simp only [remnant?] at hbare
      cases hid : plan id with
      | none => simp [Node.prune, hid, isNamedLiteral] at h
      | some r => cases r <;> simp_all [Node.prune, isNamedLiteral]
    · simp [Node.prune, isNamedLiteral] at h
  all_goals simp [Node.prune, isNamedLiteral] at h

theorem Leaves.header_cases {n x : AnyNode} {ctx ctx' : Ctx} (h : Leaves plan n ctx x ctx')
    (hctx' : ctx'.inHeader = true) (hroot : Leaves plan root .plain n ctx) {ctx₁ : Ctx}
    (hn : Shows root .plain n ctx₁) (hctx : ctx.inHeader = ctx₁.inHeader) :
    (∃ ctx₂, Shows root .plain x ctx₂ ∧ ctx₂.inHeader = true) ∨
      ∃ id callee arg spread c₁ c₂, Shows root .plain ⟨.call id callee [arg] spread⟩ c₁ ∧
        c₁.inHeader = true ∧ plan id = some .bare ∧
        Leaves plan root .plain ⟨.call id callee [arg] spread⟩ c₂ ∧ c₂.inHeader = true ∧
        Leaves plan ⟨arg⟩ c₂ x ctx' := by
  have hR : Ctx.Inherited fun c c' => c.inHeader = c'.inHeader :=
    ⟨fun _ => rfl, fun h _ => h, fun h _ _ => h⟩
  induction h generalizing ctx₁ with
  | self n ctx => exact Or.inl ⟨ctx₁, hn, hctx ▸ hctx'⟩
  | @bare id callee arg spread x ctx ctx' hid h ih =>
    cases hhead : ctx.inHeader with
    | true => exact Or.inr ⟨id, callee, arg, spread, ctx₁, ctx, hn, hctx ▸ hhead, hid, hroot, hhead, h⟩
    | false =>
      exact ih hctx' (hroot.trans (.bare hid (.self _ _))) (hn.trans (.arg ..)) hhead
  | wrapped hid h ih =>
    exact ih hctx' (hroot.trans (.wrapped hid (.self _ _))) (hn.trans (.arg ..)) rfl
  | piece hr hm h ih =>
    obtain ⟨ctx₂, hm₂, hctx₂⟩ := Node.exists_slot hR hctx hm
    exact ih hctx' (hroot.trans (.of_piece hr hm)) (hn.trans (.of_piece hm₂)) hctx₂

theorem headerSafe_prune_iff (hids : root.DistinctIds) (hsafe : HeaderSafe root .plain) :
    HeaderSafe (root.prune plan) .plain ↔ StripsSafely plan root ∧ LiteralTypesStay plan root := by
  constructor
  · intro h
    have hleft : ∀ {x : AnyNode} {ctx : Ctx}, Shows root .plain x ctx → ctx.inHeader = true →
        OutsideCallees plan root x → ∃ ctx', ctx'.inHeader = true ∧ HeaderSafe (x.prune plan) ctx' := by
      intro x ctx hx hctx hout
      obtain ⟨ctx', hleaves, hctx'⟩ := hx.exists_leaves_of_outsideCallees root.self_mem_nodes hout id
      exact ⟨ctx', hctx' hctx, h.of_shows (hleaves.shows_prune (hctx' hctx))⟩
    constructor
    · intro id callee arg spread ctx hx hctx hout hid
      obtain ⟨ctx', hctx', hsafe'⟩ := hleft hx hctx hout
      simp only [AnyNode.prune, Node.prune, hid] at hsafe'
      exact hsafe'.congr hctx'.symm
    · intro id type elts ctx hx hctx hout _
      obtain ⟨ctx', hctx', hsafe'⟩ := hleft hx hctx hout
      have := headerSafe_iff.mp hsafe' _ ctx' (.self _ _) hctx'
      simpa [Node.prune, Node.isNamedLiteral] using this
  · rintro ⟨hstrips, hliterals⟩
    rw [headerSafe_iff]
    intro l' ctx' hl' hctx'
    obtain ⟨⟨l⟩, hleaves, hprune, hbare⟩ := hl'.exists_leaves
    cases hprune
    by_contra hlit
    rw [Bool.not_eq_false] at hlit
    -- Either the header showed the literal before, or it shows it because a conversion went bare.
    rcases hleaves.header_cases hctx' (.self _ _) (.self _ _) rfl with
      ⟨ctx₂, hl, hctx₂⟩ | ⟨id, callee, arg, spread, c₁, c₂, hc, hc₁, hid, hleft, hc₂, harg⟩
    · obtain ⟨id, type, elts, rfl, htype⟩ := Node.exists_of_isNamedLiteral_prune hlit hbare
      have hbefore : type.isTypeName = false := headerSafe_iff.mp hsafe _ ctx₂ hl hctx₂
      rw [hliterals id type elts ctx₂ hl hctx₂ (hleaves.outsideCallees hids) hbefore] at htype
      cases htype
    · have hsafe' := hstrips id callee arg spread c₁ hc hc₁ (hleft.outsideCallees hids) hid
      have := headerSafe_iff.mp (hsafe'.congr hc₂) _ ctx' (harg.shows_prune hctx') hctx'
      rw [this] at hlit
      cases hlit

/-! ## Detection -/

theorem Face.exposesComposite_eq_false {f : Face} {ctx : Ctx} (h : f.needsParens ctx = false)
    (hctx : ctx.inHeader = true) : f.exposesComposite = false := by
  simp only [needsParens, Bool.or_eq_false_iff, hctx, Bool.true_and] at h
  exact h.2

/-- Every redundant conversion goes, and where a chain goes bare in a header, what it leaves exposes
no literal as it is written. All removals together keep the headers safe exactly if what the
conversions leave in headers, pruned as well, is safe there. -/
theorem headers_safe_without_iff {unit : SourceUnit} {options : DetectOptions} {found : Findings}
    (hids : DistinctIds ⟨unit.file⟩) (htok : HasTokens ⟨unit.file⟩)
    (hsafe : HeaderSafe ⟨unit.file⟩ .plain) (h : detect unit options = .ok found) :
    (∀ c ∈ unit.conversions options, ∃ k, unit.cut options c = .ok k ∧
      k.removal ∈ found.removals.toList ∧
      (k.remnant = .bare → goesAway (unit.redundant options) c.arg = false →
        ∀ x ctx, Shows ⟨unit.file⟩ .plain ⟨x⟩ ctx → c.ChainedTo unit options x →
          ctx.inHeader = true → c.arg.exposes = false)) ∧
    (HeaderSafe ⟨unit.without options found.removals⟩ .plain ↔
      StripsSafely (unit.plan options found.removals) ⟨unit.file⟩ ∧
      LiteralTypesStay (unit.plan options found.removals) ⟨unit.file⟩) := by
  refine ⟨?_, headerSafe_prune_iff hids hsafe⟩
  intro c hc
  obtain ⟨k, hk⟩ := exists_cut h hc
  refine ⟨k, hk, (mem_removals_iff h).mpr ⟨c, hc, k, hk, rfl⟩, ?_⟩
  intro hbare hstays x ctx hx hchain hctx
  rcases needsParens_of_chain hids htok hx hchain hk hbare with hgoes | hneeds
  · rw [hstays] at hgoes
    cases hgoes
  · exact Face.exposesComposite_eq_false hneeds hctx

/-- `if x == T(T(T{})) {}`: two conversions of a literal, one directly inside the other. -/
def convertedLiteral : SourceUnit := .ofBody
  [.ifStmt 1 none (.binary 2 (.ident 3 "x") .eql (.call 4 (.ident 5 "T")
    [.call 6 (.ident 7 "T") [.composite 8 (some (.ident 9 "T")) []] false] false)) (.block 10 []) none]
  [(5, ⟨.type, .named ⟨1, some "p", "T", none⟩⟩), (7, ⟨.type, .named ⟨1, some "p", "T", none⟩⟩),
    (6, ⟨.value, .named ⟨1, some "p", "T", none⟩⟩), (8, ⟨.value, .named ⟨1, some "p", "T", none⟩⟩)]

theorem removals_convertedLiteral :
    ∃ found, detect convertedLiteral .default = .ok found ∧
      found.removals = ⟨[⟨32, [⟨31, 33⟩, ⟨39, 40⟩]⟩, ⟨34, [⟨33, 34⟩]⟩], by decide⟩ :=
  exists_found _ (by decide +kernel)

/-- What is left is `if x == (T{}) {}`. -/
theorem convertedLiteral_header_safe :
    ∃ found, detect convertedLiteral .default = .ok found ∧
      HeaderSafe ⟨convertedLiteral.without .default found.removals⟩ .plain ∧
      StripsSafely (convertedLiteral.plan .default found.removals) ⟨convertedLiteral.file⟩ := by
  obtain ⟨found, h, hfound⟩ := removals_convertedLiteral
  have hids : DistinctIds ⟨convertedLiteral.file⟩ := by decide +kernel
  have htok : HasTokens ⟨convertedLiteral.file⟩ := hasTokens_iff.mpr (by decide +kernel)
  have hsafe : HeaderSafe ⟨convertedLiteral.file⟩ .plain := by decide +kernel
  have hafter : HeaderSafe ⟨convertedLiteral.without .default found.removals⟩ .plain := by
    rw [hfound]
    decide +kernel
  exact ⟨found, h, hafter, ((headers_safe_without_iff hids htok hsafe h).2.mp hafter).1⟩

/-- `if bool(T(T{}).f) {}`: a conversion of a field of a converted literal. -/
def convertedField : SourceUnit := .ofBody
  [.ifStmt 1 none (.call 2 (.ident 3 "bool") [.selector 4
    (.call 5 (.ident 6 "T") [.composite 7 (some (.ident 8 "T")) []] false) ⟨9, "f"⟩] false)
    (.block 10 []) none]
  [(3, ⟨.type, .basic .bool⟩), (4, ⟨.addressable, .basic .bool⟩),
    (6, ⟨.type, .named ⟨1, some "p", "T", none⟩⟩), (7, ⟨.value, .named ⟨1, some "p", "T", none⟩⟩)]

theorem removals_convertedField :
    ∃ found, detect convertedField .default = .ok found ∧
      found.removals =
        ⟨[⟨30, [⟨26, 31⟩, ⟨39, 40⟩]⟩, ⟨32, [⟨31, 33⟩, ⟨36, 37⟩]⟩], by decide⟩ :=
  exists_found _ (by decide +kernel)

/-- Each of the two conversions may go without parentheses as long as the other one is there. Both
together leave `if T{}.f {}`. -/
theorem convertedField_exposes_literal :
    DistinctIds ⟨convertedField.file⟩ ∧ HasTokens ⟨convertedField.file⟩ ∧
      HeaderSafe ⟨convertedField.file⟩ .plain ∧
      ∃ found, detect convertedField .default = .ok found ∧
        ¬ HeaderSafe ⟨convertedField.without .default found.removals⟩ .plain := by
  obtain ⟨found, h, hfound⟩ := removals_convertedField
  refine ⟨by decide +kernel, hasTokens_iff.mpr (by decide +kernel), by decide +kernel, found, h, ?_⟩
  rw [hfound]
  decide +kernel

end ConvSweep
