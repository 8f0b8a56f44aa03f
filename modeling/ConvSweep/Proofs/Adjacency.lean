import ConvSweep.Proofs.ChainTrials
import ConvSweep.Proofs.Layout
import ConvSweep.Proofs.TrialAnswers

/-! # Operators that meet

An argument that takes the place of its call comes right behind the operator in front of the call.
Where the call is the operand of that operator, or opens an operand that no operator splits, the two
do not run together. They may where the call is the left operand of another operator.
-/

namespace ConvSweep

open AnyNode

/-! ## How expressions begin -/

namespace Node

/-- An operator and the operand printed behind it. -/
def operator? : Expr → Option (String × Expr)
  | .star _ x => some ("*", x)
  | .unary _ op x => some (op.spelling, x)
  | .binary _ _ op y => some (op.spelling, y)
  | _ => none

/-- The left operand of an expression that an operator or a colon splits. -/
def leftOperand? : Expr → Option Expr
  | .binary _ x _ _ => some x
  | .keyValue _ key _ => some key
  | _ => none

/-- The expression that the text of an expression begins with. -/
def first? : Expr → Option Expr
  | .composite _ type _ => type
  | .selector _ x _ | .index _ x _ | .slice _ x _ _ _ | .typeAssert _ x _ | .call _ x _ _ => some x
  | e => e.leftOperand?

theorem exists_slot_of_operator? {e y : Expr} {op : String} (h : e.operator? = some (op, y))
    (ctx : Ctx) : ∃ k c, .sub k c ⟨y⟩ ∈ e.written ctx ∧ c.after = some op := by
  cases e <;> simp [operator?] at h
  all_goals obtain ⟨rfl, rfl⟩ := h
  · exact ⟨0, _, List.mem_cons_of_mem _ List.mem_cons_self, rfl⟩
  · exact ⟨0, _, List.mem_cons_of_mem _ List.mem_cons_self, rfl⟩
  · exact ⟨0, _, List.mem_cons_of_mem _ (List.mem_cons_of_mem _ List.mem_cons_self), rfl⟩

theorem written_of_first? {e y : Expr} (h : e.first? = some y) (ctx : Ctx) :
    ∃ c rest, e.written ctx = Piece.child c y :: rest ∧
      (e.leftOperand? = some y ∨ c.minPrec = primaryPrec) := by
  cases e <;> simp [first?, leftOperand?] at h
  all_goals subst h
  case binary | keyValue => exact ⟨_, _, rfl, Or.inl rfl⟩
  all_goals exact ⟨_, _, rfl, Or.inr rfl⟩

theorem exists_slot_of_first? {e y : Expr} (h : e.first? = some y) (ctx : Ctx) :
    ∃ k c, .sub k c ⟨y⟩ ∈ e.written ctx ∧ (e.leftOperand? = some y ∨ c.minPrec = primaryPrec) := by
  obtain ⟨c, rest, hw, hslot⟩ := written_of_first? h ctx
  exact ⟨0, c, hw ▸ List.mem_cons_self, hslot⟩

theorem first?_of_written {e y : Expr} {ctx c : Ctx} {rest : List Piece}
    (h : e.written ctx = Piece.child c y :: rest) : e.first? = some y := by
  cases e
  case composite id type elts =>
    cases type <;> simp [Node.pieces, Piece.optional, Piece.child] at h
    simp [first?, h]
  case slice | typeAssert =>
    obtain ⟨hfirst, -⟩ := List.cons.inj h
    cases hfirst
    rfl
  all_goals simp [Node.pieces, Piece.child] at h
  all_goals simp [first?, leftOperand?, h]

theorem written_cases (e : Expr) (ctx : Ctx) :
    (∃ s rest, e.written ctx = .text s :: rest ∧ (s = "" → rest = [])) ∨
      ∃ y c z rest, e.first? = some y ∧ e.written ctx = Piece.child c y :: .text z :: rest ∧
        z ≠ "" := by
  cases hparen : e.isParen with
  | true =>
    cases e <;> simp [isParen] at hparen
    exact Or.inl ⟨"(", _, rfl, by simp⟩
  | false =>
    have hopen : e.Opens (e.written ctx) := e.opens_pieces hparen _ ctx
    generalize hps : e.written ctx = ps at hopen
    cases hopen with
    | word s h => exact Or.inl ⟨s, [], rfl, fun _ => rfl⟩
    | text s rest h => exact Or.inl ⟨s, rest, rfl, fun hs => (h.ne_empty hs).elim⟩
    | operand c y z rest h => exact Or.inr ⟨y, c, z, rest, first?_of_written hps, rfl, h.ne_empty⟩

end Node

/-- The text of `e` begins with that of `x`. -/
inductive Leads : Expr → Expr → Prop
  | self (e : Expr) : Leads e e
  | first {e y x : Expr} (hy : e.first? = some y) (h : Leads y x) : Leads e x

theorem Leads.cases_last {e x : Expr} (h : Leads e x) :
    x = e ∨ ∃ p, ⟨p⟩ ∈ AnyNode.nodes ⟨e⟩ ∧ p.first? = some x := by
  induction h with
  | self => exact Or.inl rfl
  | @first e y x hy _ ih =>
    right
    rcases ih with rfl | ⟨p, hp, hx⟩
    · exact ⟨e, self_mem_nodes _, hy⟩
    · obtain ⟨k, c, hpiece, -⟩ := Node.exists_slot_of_first? hy .plain
      exact ⟨p, Node.mem_nodes_of_piece hpiece hp, hx⟩

/-! ## The operator that a text opens with -/

namespace Node

/-- The operators that stand in front of an operand, the arrow of a channel type among them. -/
def operandSigns : List String := ["+", "-", "!", "^", "*", "&", "<-"]

/-- The printed text of an expression begins with an operator. -/
def OpensWith (e : Expr) (t : String) : Prop :=
  t ∈ operandSigns ∧ t.toList <+: e.chars .faithful 0 .plain

instance (e : Expr) (t : String) : Decidable (e.OpensWith t) := inferInstanceAs (Decidable (_ ∧ _))

/-- The expressions that show their slot no operator, whatever their text begins with. -/
def hidesOpening : Expr → Bool
  | .ident .. | .basicLit .. | .composite .. | .keyValue .. => true
  | _ => false

/-- Where the text begins with that of a name, of a literal or of a key-value pair, it does not begin
as an operator does. -/
def OpensPlainly (e : Expr) : Prop :=
  ∀ x, Leads e x → x.hidesOpening = true →
    ∀ t ∈ operandSigns, (x.chars .faithful 0 .plain).head? ≠ t.toList.head?

/-- No operator that the printed text opens with runs together with `op`. -/
def StaysApart (e : Expr) (op : String) : Prop := ∀ t, e.OpensWith t → tokensFuse op t = false

theorem opening_of_hidesOpening {e : Expr} (h : e.hidesOpening = true) :
    (e.face fun _ => none).opening = none := by
  cases e <;> simp [hidesOpening] at h <;> simp [face, Face.closed]

theorem opening_of_first? {e y : Expr} (hy : e.first? = some y) (hshows : e.hidesOpening = false) :
    (e.face fun _ => none).opening = (y.face fun _ => none).opening := by
  cases e <;> simp [first?, leftOperand?, hidesOpening] at hy hshows
  all_goals
    subst hy
    simp only [face]

theorem chars_of_first? {e y : Expr} (hy : e.first? = some y) :
    ∃ rest, e.chars .faithful 0 .plain = y.chars .faithful 0 .plain ++ rest := by
  obtain ⟨c, rest, hw, -⟩ := written_of_first? hy .plain
  refine ⟨rest.flatMap (Piece.chars .faithful 0), ?_⟩
  have hchars : e.chars .faithful 0 .plain = (e.written .plain).flatMap (Piece.chars .faithful 0) :=
    chars_eq rfl 0 .plain
  rw [hchars, hw, List.flatMap_cons]
  exact congrArg (fun d : Doc => d.toString.toList ++ _) (doc_faithful_ctx y 0 c .plain)

theorem written_of_first?_eq_none {e : Expr} (hfirst : e.first? = none)
    (hshows : e.hidesOpening = false) (ctx : Ctx) :
    ∃ s rest, e.written ctx = .text s :: rest ∧ s ≠ "" ∧
      (∀ t ∈ operandSigns, s.toList.head? = t.toList.head? →
        (e.face fun _ => none).opening = some t) ∧
      ∀ t, (e.face fun _ => none).opening = some t → t ∈ operandSigns ∧ t.toList <+: s.toList := by
  cases e <;> simp [first?, leftOperand?, hidesOpening] at hfirst hshows
  case unary id op x =>
    refine ⟨_, _, rfl, ?_⟩
    simp only [face]
    cases op <;> decide
  case chanType id dir value =>
    refine ⟨_, _, rfl, ?_⟩
    simp only [face]
    cases dir <;> decide
  case funcType id params results =>
    refine ⟨_, _, rfl, ?_⟩
    cases results <;> simp [face, Face.closed, operandSigns]
  all_goals
    refine ⟨_, _, rfl, ?_⟩
    simp [face, Face.closed, operandSigns]

theorem chars_ne_nil {e : Expr} (htok : HasTokens ⟨e⟩) : e.chars .faithful 0 .plain ≠ [] := by
  intro hnil
  have hpos := width_doc_pos (n := e) (fun s hs => (htok _ (self_mem_nodes _) s hs).ne_empty) 0 .plain
  rw [← Doc.utf8ByteSize_toString, String.toList_eq_nil_iff.mp hnil] at hpos
  exact absurd hpos (by decide)

theorem OpensPlainly.of_first? {e y : Expr} (h : e.OpensPlainly) (hy : e.first? = some y) :
    y.OpensPlainly := fun x hx => h x (.first hy hx)

theorem OpensPlainly.of_first?_eq_none {e : Expr} (hfirst : e.first? = none)
    (hshows : e.hidesOpening = false) : e.OpensPlainly := by
  rintro x hx hhides
  cases hx with
  | self => simp [hshows] at hhides
  | first hy => simp [hfirst] at hy

theorem opening_of_begins {e : Expr} (htok : HasTokens ⟨e⟩) (hplain : e.OpensPlainly) :
    (∀ t ∈ operandSigns, (e.chars .faithful 0 .plain).head? = t.toList.head? →
      (e.face fun _ => none).opening = some t) ∧
    ∀ t, (e.face fun _ => none).opening = some t → e.OpensWith t := by
  -- Along what comes first in the expression: its text begins the same way.
  generalize hn : (⟨e⟩ : AnyNode) = n
  induction n using AnyNode.print_induct generalizing e with
  | step n ih =>
    subst hn
    cases hhides : e.hidesOpening with
    | true =>
      rw [opening_of_hidesOpening hhides]
      exact ⟨fun t ht heq => absurd heq (hplain e (.self e) hhides t ht), nofun⟩
    | false =>
      cases hfirst : e.first? with
      | none =>
        obtain ⟨s, rest, hw, hs, hhead, hopens⟩ := written_of_first?_eq_none hfirst hhides .plain
        have hchars : e.chars .faithful 0 .plain =
            s.toList ++ rest.flatMap (Piece.chars .faithful 0) :=
          (chars_eq rfl 0 .plain).trans (congrArg (List.flatMap (Piece.chars .faithful 0)) hw)
        have hne : s.toList ≠ [] := by simpa using hs
        simp only [OpensWith, hchars, List.head?_append_of_ne_nil _ hne]
        exact ⟨hhead, fun t h => ⟨(hopens t h).1, (hopens t h).2.trans (List.prefix_append _ _)⟩⟩
      | some y =>
        obtain ⟨k, c, hpiece, -⟩ := exists_slot_of_first? hfirst .plain
        have htoky := htok.of_mem (mem_nodes_of_piece hpiece (self_mem_nodes _))
        obtain ⟨rest, hchars⟩ := chars_of_first? hfirst
        obtain ⟨hhead, hopens⟩ := ih _ _ k c ⟨y⟩ hpiece htoky (hplain.of_first? hfirst) rfl
        simp only [opening_of_first? hfirst hhides, OpensWith, hchars,
          List.head?_append_of_ne_nil _ (chars_ne_nil htoky)]
        exact ⟨hhead, fun t h => ⟨(hopens t h).1, (hopens t h).2.trans (List.prefix_append _ _)⟩⟩

theorem opensWith_iff {e : Expr} (htok : HasTokens ⟨e⟩) (hplain : e.OpensPlainly) {t : String} :
    e.OpensWith t ↔ (e.face fun _ => none).opening = some t := by
  obtain ⟨hhead, hopens⟩ := opening_of_begins htok hplain
  refine ⟨fun ⟨ht, rest, hrest⟩ => hhead t ht ?_, hopens t⟩
  have hne : ∀ t ∈ operandSigns, t.toList ≠ [] := by decide
  rw [← hrest, List.head?_append_of_ne_nil _ (hne t ht)]

end Node

/-! ## Expressions that start at the same place -/

theorem Piece.start_lt_of_text {depth start : Nat} {s : String} {rest : List Piece}
    (hs : s = "" → rest = []) {p : NodeId × Span}
    (hp : p ∈ (row depth (.text s :: rest)).spans start) : start < p.2.start := by
  have hp' : p ∈ (row depth rest).spans (start + s.utf8ByteSize) := hp
  have hin := Doc.spans_inside _ _ p hp'
  have hpos : s.utf8ByteSize ≠ 0 := by
    intro hzero
    rw [String.utf8ByteSize_eq_zero_iff] at hzero
    rw [hs hzero] at hp'
    exact absurd hp' List.not_mem_nil
  omega

theorem leads_of_start {e x : Expr} (hids : DistinctIds ⟨e⟩) (hx : ⟨x⟩ ∈ AnyNode.nodes ⟨e⟩)
    {depth : Nat} {ctx : Ctx} {s : Span}
    (hs : (x.id, s) ∈ (e.doc .faithful depth ctx).spans s.start) : Leads e x := by
  generalize hn : (⟨e⟩ : AnyNode) = n
  induction n using AnyNode.print_induct generalizing e depth ctx with
  | step n ih =>
    subst hn
    by_cases hne : x = e
    · subst hne
      exact .self x
    have hrow := mem_spans_row_of_ne hids hx (by simpa using hne) hs
    rcases e.written_cases ctx with ⟨s', rest, hw, hs'⟩ | ⟨y, c, z, rest, hy, hw, hz⟩
    · rw [hw] at hrow
      exact (Nat.lt_irrefl _ (Piece.start_lt_of_text hs' hrow)).elim
    · have hpiece : .sub 0 c ⟨y⟩ ∈ e.written ctx := by simp [hw]
      rw [hw] at hrow
      rcases List.mem_append.mp hrow with hfirst | hrest
      · have hmem := Node.mem_nodes_of_piece hpiece (self_mem_nodes _)
        have hxy := hids.mem_of_id hmem hx (id_mem_of_span (n := ⟨y⟩) hfirst)
        exact .first hy (ih _ ctx 0 c ⟨y⟩ hpiece (hids.of_mem hmem) hxy hfirst rfl)
      · have hlt := Piece.start_lt_of_text (fun h => (hz h).elim) hrest
        simp only at hlt
        omega

/-! ## Behind an operator -/

/-- In the text of the file, `x` comes right behind an operator: where the operand starts, `x`
starts. -/
structure FollowsOperator (file : File) (x : Expr) (op : String) (operand : Expr) : Prop where
  around : ∃ e, ⟨e⟩ ∈ AnyNode.nodes ⟨file⟩ ∧ e.operator? = some (op, operand)
  inside : ⟨x⟩ ∈ AnyNode.nodes ⟨operand⟩
  start : ∃ s t, file.layout.positions.spans.get? operand.id = some s ∧
    file.layout.positions.spans.get? x.id = some t ∧ t.start = s.start

namespace FollowsOperator

variable {file : File} {x operand : Expr} {op : String} (h : FollowsOperator file x op operand)
include h

theorem operand_mem : ⟨operand⟩ ∈ AnyNode.nodes ⟨file⟩ := by
  obtain ⟨e, he, hop⟩ := h.around
  obtain ⟨k, c, hpiece, -⟩ := Node.exists_slot_of_operator? hop .plain
  exact mem_nodes_trans he (Node.mem_nodes_of_piece hpiece (self_mem_nodes _))

theorem leads (hids : DistinctIds ⟨file⟩) : Leads operand x := by
  obtain ⟨s, t, hs, ht, hstart⟩ := h.start
  obtain ⟨depth, ctx, -, hspan⟩ := mem_spans_inside hids h.operand_mem h.inside
    (Table.mem_of_get?_ofList hs) (Table.mem_of_get?_ofList ht)
  exact leads_of_start (hids.of_mem h.operand_mem) h.inside (hstart.symm ▸ hspan)

theorem exists_shows (hids : DistinctIds ⟨file⟩) : ∃ ctx, Shows ⟨file⟩ .plain ⟨x⟩ ctx := by
  obtain ⟨s, t, -, ht, -⟩ := h.start
  exact Shows.of_span hids (mem_nodes_trans h.operand_mem h.inside) (Table.mem_of_get?_ofList ht)

end FollowsOperator

theorem Shows.slot_eq {file : File} (hids : DistinctIds ⟨file⟩) {x : Expr} {ctx : Ctx}
    (h : Shows ⟨file⟩ .plain ⟨x⟩ ctx) {p : Expr} (hp : ⟨p⟩ ∈ AnyNode.nodes ⟨file⟩)
    {P : Ctx → Prop} (hslot : ∀ ctxp, ∃ k c, .sub k c ⟨x⟩ ∈ p.written ctxp ∧ P c) : P ctx := by
  obtain ⟨k, c, hpiece, -⟩ := hslot .plain
  have hchild : ⟨x⟩ ∈ AnyNode.children ⟨p⟩ := by
    rcases Node.cases_of_piece hpiece with hchild | ⟨-, hmethod⟩
    · exact hchild
    · cases hmethod
  obtain ⟨above, hv⟩ := exists_visit [] hp
  obtain ⟨q, qs, ctxp, k', heq, hq, -, hx⟩ := h.exists_parent hids (visit_child hv hchild)
  cases heq
  obtain ⟨k, c, hpiece, hc⟩ := hslot ctxp
  obtain ⟨-, rfl, -⟩ := (hids.of_mem hp).piece_eq hpiece hx (self_mem_nodes _) (self_mem_nodes _)
  exact hc

theorem Face.tokensFuse_eq_false {f : Face} {ctx : Ctx} (h : f.needsParens ctx = false) {op t : String}
    (hop : ctx.after = some op) (ht : f.opening = some t) : tokensFuse op t = false := by
  simp only [needsParens, hop, ht, Bool.or_eq_false_iff] at h
  exact h.1.2

/-- Where the trial of a call behind an operator finds the parentheses optional, the operator does
not run together with what the text of the argument opens with if the call is the operand. Nor does
it elsewhere in a file that keeps precedence, unless the call is the left operand of an operator
inside the operand. -/
theorem operators_kept_apart {file : File} (hids : DistinctIds ⟨file⟩) (htok : HasTokens ⟨file⟩)
    {id : NodeId} {callee arg : Expr} {args : List Expr} {spread : Bool} {ancestors : List AnyNode}
    (hv : ⟨⟨.call id callee (arg :: args) spread⟩, ancestors⟩ ∈ AnyNode.visits ⟨file⟩ [])
    {op : String} {operand : Expr}
    (h : FollowsOperator file (.call id callee (arg :: args) spread) op operand) :
    ∃ trial, ParensTrial.run ancestors id arg = some trial ∧
      (trial.required = false → arg.OpensPlainly →
        (operand.id = id → arg.StaysApart op) ∧
        (PrecedenceKept file → arg.StaysApart op ∨
          ∃ p, ⟨p⟩ ∈ AnyNode.nodes ⟨operand⟩ ∧
            p.leftOperand? = some (.call id callee (arg :: args) spread))) := by
  obtain ⟨trial, hrun⟩ := ParensTrial.exists_run hv arg
  refine ⟨trial, hrun, fun hoptional hplain => ?_⟩
  obtain ⟨ctx, hshow⟩ := h.exists_shows hids
  have harg := Shows.first_arg id callee arg args spread ctx
  have hopens : ∀ t, arg.OpensWith t → (arg.face fun _ => none).opening = some t :=
    fun _ => (Node.opensWith_iff (htok.of_mem (hshow.trans harg).mem_nodes) hplain).mp
  have hneeds := needsParens_eq_false_of_trial hids htok harg.mem_nodes hshow hv hrun hoptional
  have hdirect : operand = .call id callee (arg :: args) spread → arg.StaysApart op := by
    rintro rfl
    obtain ⟨e, he, hop⟩ := h.around
    have hafter := hshow.slot_eq hids he (Node.exists_slot_of_operator? hop)
    exact fun t ht => Face.tokensFuse_eq_false hneeds hafter (hopens t ht)
  constructor
  · intro hid
    cases hids.eq_of_id h.operand_mem hshow.mem_nodes hid
    exact hdirect rfl
  · intro hprec
    -- The call is the operand itself, or opens it: in a left operand or in a primary expression.
    rcases (h.leads hids).cases_last with heq | ⟨p, hp, hfirst⟩
    · exact Or.inl (hdirect heq.symm)
    · have hpfile := mem_nodes_trans h.operand_mem hp
      rcases hshow.slot_eq hids hpfile (P := fun c => _ ∨ c.minPrec = primaryPrec)
        (Node.exists_slot_of_first? hfirst) with hleft | hprimary
      · exact Or.inr ⟨p, hp, hleft⟩
      · have hnone := hprec.opening_of_primary (hshow.trans harg)
          (hprimary ▸ Face.minPrec_le hneeds)
        rw [hnone] at hopens
        exact Or.inl fun t ht => nomatch hopens t ht

/-- `_ = a * int(-x)`: a conversion of a negation, behind an operator. -/
def negatedOperand : SourceUnit := .ofBody
  [.assign 1 [.ident 2 "_"] .assign [.binary 3 (.ident 4 "a") .mul
    (.call 5 (.ident 6 "int") [.unary 7 .neg (.ident 8 "x")] false)]]
  [(5, ⟨.value, .basic .int⟩), (6, ⟨.type, .basic .int⟩), (7, ⟨.value, .basic .int⟩)]

theorem followsOperator_negatedOperand :
    FollowsOperator negatedOperand.file (.call 5 (.ident 6 "int") [.unary 7 .neg (.ident 8 "x")] false)
      "*" (.call 5 (.ident 6 "int") [.unary 7 .neg (.ident 8 "x")] false) where
  around := ⟨_, mem_nodes_of_below? [0, 1, 0, 1] rfl, rfl⟩
  inside := self_mem_nodes _
  start := ⟨⟨31, 38⟩, ⟨31, 38⟩, by decide +kernel, by decide +kernel, rfl⟩

/-- In `a * -x` the operators are read one by one, also without blanks. -/
theorem negatedOperand_kept_apart :
    ∃ ancestors trial,
      ⟨⟨.call 5 (.ident 6 "int") [.unary 7 .neg (.ident 8 "x")] false⟩, ancestors⟩ ∈
        AnyNode.visits ⟨negatedOperand.file⟩ [] ∧
      ParensTrial.run ancestors 5 (.unary 7 .neg (.ident 8 "x")) = some trial ∧
      trial.required = false ∧ (Node.unary 7 .neg (.ident 8 "x")).StaysApart "*" := by
  have hfollows := followsOperator_negatedOperand
  have hids : DistinctIds ⟨negatedOperand.file⟩ := by decide +kernel
  have htok : HasTokens ⟨negatedOperand.file⟩ := hasTokens_iff.mpr (by decide +kernel)
  obtain ⟨ancestors, hv⟩ := exists_visit [] hfollows.operand_mem
  obtain ⟨trial, hrun, hapart⟩ := operators_kept_apart hids htok hv hfollows
  have hall : ∀ v ∈ AnyNode.visits ⟨negatedOperand.file⟩ [], v.node.id = 5 →
      (ParensTrial.run v.ancestors 5 (.unary 7 .neg (.ident 8 "x"))).map (·.required) =
        some false := by
    decide +kernel
  have hoptional : trial.required = false := by
    simpa [hrun] using hall _ hv rfl
  exact ⟨ancestors, trial, hv, hrun, hoptional, (hapart hoptional (.of_first?_eq_none rfl rfl)).1 rfl⟩

/-- In `_ = a - int(-x) * b` the conversion comes right behind the `-`, as the left operand of `*`.
The trial, which renders `-x * b`, finds the parentheses optional; `a-int(-x)*b` without them is
`a--x*b`. -/
theorem negatedFactor_runs_together :
    DistinctIds ⟨negatedFactor.file⟩ ∧
      FollowsOperator negatedFactor.file
        (.call 6 (.ident 7 "int") [.unary 8 .neg (.ident 9 "x")] false) "-"
        (.binary 5 (.call 6 (.ident 7 "int") [.unary 8 .neg (.ident 9 "x")] false) .mul
          (.ident 10 "b")) ∧
      ∃ ancestors trial,
        ⟨⟨.call 6 (.ident 7 "int") [.unary 8 .neg (.ident 9 "x")] false⟩, ancestors⟩ ∈
          AnyNode.visits ⟨negatedFactor.file⟩ [] ∧
        ParensTrial.run ancestors 6 (.unary 8 .neg (.ident 9 "x")) = some trial ∧
        trial.required = false ∧ ¬ (Node.unary 8 .neg (.ident 9 "x")).StaysApart "-" := by
  have hfollows : FollowsOperator negatedFactor.file
      (.call 6 (.ident 7 "int") [.unary 8 .neg (.ident 9 "x")] false) "-"
      (.binary 5 (.call 6 (.ident 7 "int") [.unary 8 .neg (.ident 9 "x")] false) .mul
        (.ident 10 "b")) := {
    around := ⟨_, mem_nodes_of_below? [0, 1, 0, 1] rfl, rfl⟩
    inside := mem_nodes_of_below? [0] rfl
    start := ⟨⟨31, 42⟩, ⟨31, 38⟩, by decide +kernel, by decide +kernel, rfl⟩ }
  obtain ⟨ancestors, hv⟩ := exists_visit [] shows_negatedFactor.mem_nodes
  obtain ⟨trial, hrun, hoptional⟩ := Option.map_eq_some_iff.mp (optional_negatedFactor _ hv rfl)
  refine ⟨distinctIds_negatedFactor, hfollows, ancestors, trial, hv, hrun, hoptional, ?_⟩
  intro hapart
  have hfuse := hapart "-" (by decide +kernel)
  exact absurd hfuse (by decide)

end ConvSweep
