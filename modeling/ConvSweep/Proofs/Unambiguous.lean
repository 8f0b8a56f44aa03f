import ConvSweep.Proofs.Precedence
import ConvSweep.Proofs.Tokens

/-! # Renderings are unambiguous

The canonical text of a formula determines it up to parentheses. The tokens are read from left to
right on a stack: an operator takes in everything before it that binds at least as tightly, and then
waits for its right operand. Since every operand of a formula binds as tightly as its slot asks,
this gives back what was printed.
-/

namespace ConvSweep

open AnyNode

/-- A formula without its parentheses, and with the same id everywhere. -/
def Node.bare : {c : Category} → Node c → Node c
  | _, .ident _ name => .ident 0 name
  | _, .paren _ x => x.bare
  | _, .unary _ op x => .unary 0 op x.bare
  | _, .star _ x => .star 0 x.bare
  | _, .binary _ x op y => .binary 0 x.bare op y.bare
  | _, .selector _ x sel => .selector 0 x.bare ⟨0, sel.name⟩
  | _, .index _ x i => .index 0 x.bare i.bare
  | _, .call _ callee args spread => .call 0 callee.bare (args.map (·.bare)) spread
  | _, n => n
termination_by _ n => sizeOf n
decreasing_by
  all_goals try have := List.sizeOf_lt_of_mem ‹_ ∈ _›
  all_goals simp
  all_goals omega

/-! ## Reading tokens -/

/-- What is begun and waits for an operand. -/
inductive Frame
  | unary (op : UnaryOp)
  | star
  /-- A binary operator with its left operand. -/
  | binary (x : Expr) (op : BinaryOp)
  /-- An opening parenthesis. -/
  | group
  | index (x : Expr)
  /-- A call with the arguments so far. -/
  | call (callee : Expr) (args : List Expr)

/-- Takes in the operators that bind at least as tightly as `level`. -/
def reduce (level : Nat) : List Frame → Expr → List Frame × Expr
  | .unary op :: fs, x =>
    if level ≤ unaryPrec then reduce level fs (.unary 0 op x) else (.unary op :: fs, x)
  | .star :: fs, x => if level ≤ unaryPrec then reduce level fs (.star 0 x) else (.star :: fs, x)
  | .binary l op :: fs, x =>
    if level ≤ op.precedence then reduce level fs (.binary 0 l op x) else (.binary l op :: fs, x)
  | fs, x => (fs, x)

/-- What is begun, the innermost first, and the operand that was read last. -/
structure Stack where
  frames : List Frame
  operand : Option Expr

/-- How tightly a token binds what is before it. -/
def Token.level : Token → Nat
  | .sel _ | .lbrack | .lparen => primaryPrec
  | .binary op => op.precedence
  | _ => 0

theorem Token.level_ne_unaryPrec (t : Token) : t.level ≠ unaryPrec := by
  cases t with
  | binary op => cases op <;> decide
  | _ => simp [level, primaryPrec, unaryPrec]

/-- Reads a token where an operand is expected. -/
def Token.begin : Token → List Frame → Stack
  | .name s, fs => ⟨fs, some (.ident 0 s)⟩
  | .unary op, fs => ⟨.unary op :: fs, none⟩
  | .star, fs => ⟨.star :: fs, none⟩
  | .lparen, fs => ⟨.group :: fs, none⟩
  | .rparen spread, .call callee args :: fs => ⟨fs, some (.call 0 callee args spread)⟩
  | _, fs => ⟨fs, none⟩

/-- Reads a token after an operand. -/
def Token.extend : Token → List Frame × Expr → Stack
  | .sel s, (fs, x) => ⟨fs, some (.selector 0 x ⟨0, s⟩)⟩
  | .binary op, (fs, x) => ⟨.binary x op :: fs, none⟩
  | .lbrack, (fs, x) => ⟨.index x :: fs, none⟩
  | .rbrack, (.index x :: fs, i) => ⟨fs, some (.index 0 x i)⟩
  | .lparen, (fs, x) => ⟨.call x [] :: fs, none⟩
  | .comma, (.call callee args :: fs, x) => ⟨.call callee (args ++ [x]) :: fs, none⟩
  | .rparen spread, (.call callee args :: fs, x) =>
    ⟨fs, some (.call 0 callee (args ++ [x]) spread)⟩
  | .rparen _, (.group :: fs, x) => ⟨fs, some x⟩
  | _, (fs, x) => ⟨fs, some x⟩

def Stack.step (s : Stack) (t : Token) : Stack :=
  match s.operand with
  | none => t.begin s.frames
  | some x => t.extend (reduce t.level s.frames x)

/-- The stack after a row of tokens that begins where an operand is expected. -/
def Stack.after (fs : List Frame) (ts : List Token) : Stack := ts.foldl step ⟨fs, none⟩

/-! ## Levels -/

/-- Nothing in the frames binds as tightly as `level`. No token has the level of unary operators,
whose operands may be unary themselves. -/
def StopsAt (fs : List Frame) (level : Nat) : Prop :=
  ∀ q x, level ≤ q → q ≠ unaryPrec → reduce q fs x = (fs, x)

theorem StopsAt.mono {fs : List Frame} {p q : Nat} (h : StopsAt fs p) (hpq : p ≤ q) : StopsAt fs q :=
  fun r x hr hne => h r x (Nat.le_trans hpq hr) hne

theorem stopsAt_unary (op : UnaryOp) (fs : List Frame) : StopsAt (.unary op :: fs) unaryPrec := by
  intro q x hq hne
  rw [reduce, if_neg (by omega)]

theorem stopsAt_star (fs : List Frame) : StopsAt (.star :: fs) unaryPrec := by
  intro q x hq hne
  rw [reduce, if_neg (by omega)]

theorem stopsAt_binary (l : Expr) (op : BinaryOp) (fs : List Frame) :
    StopsAt (.binary l op :: fs) (op.precedence + 1) := by
  intro q x hq _
  rw [reduce, if_neg (by omega)]

/-- On top of `fs`, the stack holds `x`, once everything is taken in down to `level`. -/
def Stack.Holds (s : Stack) (fs : List Frame) (level : Nat) (x : Expr) : Prop :=
  ∃ gs y, s = ⟨gs, some y⟩ ∧ ∀ q ≤ level, reduce q gs y = reduce q fs x

namespace Stack.Holds

variable {s : Stack} {fs gs : List Frame} {level : Nat} {x : Expr}

theorem of_eq (h : s = ⟨fs, some x⟩) : s.Holds fs level x := ⟨fs, x, h, fun _ _ => rfl⟩

theorem after_cons {ts : List Token} {t : Token} (h : (after fs ts).Holds fs t.level x)
    (hstop : StopsAt fs t.level) (us : List Token) :
    after fs (ts ++ t :: us) = us.foldl step (t.extend (fs, x)) := by
  obtain ⟨gs, y, heq, hreduce⟩ := h
  have hreduced : reduce t.level gs y = (fs, x) :=
    (hreduce _ (Nat.le_refl _)).trans (hstop _ x (Nat.le_refl _) t.level_ne_unaryPrec)
  rw [after, List.foldl_append, List.foldl_cons, ← after, heq, ← hreduced]
  rfl

theorem reduced (h : s.Holds gs level x) {level' : Nat} (hle : level' ≤ level) {y : Expr}
    (hreduce : ∀ q ≤ level', reduce q gs x = reduce q fs y) : s.Holds fs level' y := by
  obtain ⟨hs, z, rfl, hz⟩ := h
  exact ⟨hs, z, rfl, fun q hq => (hz q (Nat.le_trans hq hle)).trans (hreduce q hq)⟩

end Stack.Holds

/-! ## Reading formulas -/

/-- Every expression that is not in parentheses binds at least as tightly as the slot asks into which
it is printed. -/
def Node.OperandsBind (e : Expr) (ctx : Ctx) : Prop :=
  ∀ (x : Expr) (ctx' : Ctx), Shows ⟨e⟩ ctx ⟨x⟩ ctx' → x.isParen = false → ctx'.minPrec ≤ x.precedence

theorem Node.OperandsBind.piece {e : Expr} {ctx : Ctx} (h : e.OperandsBind ctx) (x : Expr)
    (ctx' : Ctx) (hx : Piece.child ctx' x ∈ e.written ctx) :
    x.OperandsBind ctx' ∧ (x.isParen = false → ctx'.minPrec ≤ x.precedence) :=
  ⟨fun y ctx'' hy => h y ctx'' (.piece hx hy), h x ctx' (.of_piece hx)⟩

theorem Stack.after_args {args : List Expr}
    (h : ∀ a ∈ args, ∀ fs, StopsAt fs 0 → (after fs (a.tokens .plain)).Holds fs 0 a.bare)
    (callee : Expr) (before : List Expr) (spread : Bool) (fs : List Frame) :
    after (.call callee before :: fs)
        (Token.listed (args.map (·.tokens .plain)) ++ [.rparen spread]) =
      ⟨fs, some (.call 0 callee (before ++ args.map (·.bare)) spread)⟩ := by
  induction args generalizing before with
  | nil => simp [Token.listed, after, step, Token.begin]
  | cons a args ih =>
    have hstop : StopsAt (.call callee before :: fs) 0 := fun _ _ _ _ => rfl
    have ha := h a List.mem_cons_self _ hstop
    cases args with
    | nil => exact ha.after_cons (t := .rparen spread) hstop []
    | cons b args =>
      have hargs := ih (fun c hc => h c (List.mem_cons_of_mem _ hc)) (before ++ [a.bare])
      have hlisted : Token.listed ((a :: b :: args).map (·.tokens .plain)) =
          a.tokens .plain ++ .comma :: Token.listed ((b :: args).map (·.tokens .plain)) := rfl
      rw [hlisted, List.append_assoc, List.cons_append,
        ha.after_cons (t := .comma) hstop]
      rw [List.append_assoc] at hargs
      exact hargs

namespace Node.IsFormula

variable {e : Expr}

theorem holds_after (h : e.IsFormula) :
    ∀ (ctx₀ ctx : Ctx) (fs : List Frame), e.OperandsBind ctx₀ →
      (e.isParen = false → ctx.minPrec ≤ e.precedence) → StopsAt fs ctx.minPrec →
      (Stack.after fs (e.tokens ctx)).Holds fs ctx.minPrec e.bare := by
  induction h with
  | ident id h =>
    intro ctx₀ ctx fs hbind hprec hstop
    rw [Node.tokens, Node.bare]
    exact .of_eq rfl
  | @paren id x _ ih =>
    intro ctx₀ ctx fs hbind hprec hstop
    obtain ⟨hx, -⟩ := hbind.piece x .plain (by simp [Node.pieces])
    rw [Node.tokens, Node.bare]
    split
    case isTrue =>
      have hgroup : StopsAt (.group :: fs) 0 := fun _ _ _ _ => rfl
      have hinner := ih _ .plain _ hx (fun _ => Nat.zero_le _) hgroup
      have heq := hinner.after_cons (t := .rparen false) hgroup []
      exact .of_eq heq
    case isFalse hneeds =>
      -- Parentheses are left out only around what binds as tightly as the slot asks.
      exact ih _ ctx fs hx (fun _ => Face.minPrec_le (by simpa using hneeds)) hstop
  | @unary id op x _ ih =>
    intro ctx₀ ctx fs hbind hprec hstop
    obtain ⟨hx, hxprec⟩ := hbind.piece x (ctx₀.operand unaryPrec op.spelling)
      (by simp [Node.pieces])
    have hle : ctx.minPrec ≤ unaryPrec := hprec rfl
    have hoperand := ih _ (ctx.operand unaryPrec op.spelling) _ hx hxprec (stopsAt_unary op fs)
    rw [Node.tokens, Node.bare]
    refine hoperand.reduced hle fun q hq => ?_
    rw [reduce, if_pos (hq.trans hle)]
  | @star id x _ ih =>
    intro ctx₀ ctx fs hbind hprec hstop
    obtain ⟨hx, hxprec⟩ := hbind.piece x (ctx₀.operand unaryPrec "*")
      (by simp [Node.pieces])
    have hle : ctx.minPrec ≤ unaryPrec := hprec rfl
    have hoperand := ih _ (ctx.operand unaryPrec "*") _ hx hxprec (stopsAt_star fs)
    rw [Node.tokens, Node.bare]
    refine hoperand.reduced hle fun q hq => ?_
    rw [reduce, if_pos (hq.trans hle)]
  | @binary id op x y _ _ ihx ihy =>
    intro ctx₀ ctx fs hbind hprec hstop
    obtain ⟨hx, hxprec⟩ := hbind.piece x (ctx₀.prec op.precedence)
      (by simp [Node.pieces])
    obtain ⟨hy, hyprec⟩ := hbind.piece y
      (ctx₀.operand (op.precedence + 1) op.spelling) (by simp [Node.pieces])
    have hle : ctx.minPrec ≤ op.precedence := hprec rfl
    have hleft := ihx _ (ctx.prec op.precedence) _ hx hxprec (hstop.mono hle)
    have hright := ihy _ (ctx.operand (op.precedence + 1) op.spelling) _ hy hyprec
      (stopsAt_binary x.bare op fs)
    -- The operator takes the left operand in; the right one then waits on top of both.
    rw [Node.tokens, Node.bare, hleft.after_cons (t := .binary op) (hstop.mono hle)]
    refine hright.reduced (Nat.le_succ_of_le hle) fun q hq => ?_
    rw [reduce, if_pos (hq.trans hle)]
  | @selector id sel hsel x _ ih =>
    intro ctx₀ ctx fs hbind hprec hstop
    obtain ⟨hx, hxprec⟩ := hbind.piece x (ctx₀.prec primaryPrec)
      (by simp [Node.pieces])
    have hprimary := hstop.mono (hprec rfl)
    have hoperand := ih _ (ctx.prec primaryPrec) _ hx hxprec hprimary
    rw [Node.tokens, Node.bare, hoperand.after_cons (t := .sel sel.name) hprimary]
    exact .of_eq rfl
  | @index id x i _ _ ihx ihi =>
    intro ctx₀ ctx fs hbind hprec hstop
    obtain ⟨hx, hxprec⟩ := hbind.piece x (ctx₀.prec primaryPrec)
      (by simp [Node.pieces])
    obtain ⟨hi, -⟩ := hbind.piece i .plain (by simp [Node.pieces])
    have hprimary := hstop.mono (hprec rfl)
    have hoperand := ihx _ (ctx.prec primaryPrec) _ hx hxprec hprimary
    have hbracket : StopsAt (.index x.bare :: fs) 0 := fun _ _ _ _ => rfl
    have hinner := ihi _ .plain _ hi (fun _ => Nat.zero_le _) hbracket
    rw [Node.tokens, Node.bare, List.append_assoc, List.cons_append,
      hoperand.after_cons (t := .lbrack) hprimary]
    have heq := hinner.after_cons (t := .rbrack) hbracket []
    exact .of_eq heq
  | @call id spread callee args _ _ ih ihargs =>
    intro ctx₀ ctx fs hbind hprec hstop
    obtain ⟨hx, hxprec⟩ := hbind.piece callee (ctx₀.prec primaryPrec)
      (by simp [Node.pieces])
    have hprimary := hstop.mono (hprec rfl)
    have hoperand := ih _ (ctx.prec primaryPrec) _ hx hxprec hprimary
    have hargs : ∀ a ∈ args, ∀ gs, StopsAt gs 0 →
        (Stack.after gs (a.tokens .plain)).Holds gs 0 a.bare := by
      intro a ha gs hgs
      have hpiece : Piece.child .plain a ∈ (Node.call id callee args spread).written ctx₀ := by
        simp only [Node.written, Node.pieces, Piece.child, List.mem_append, Piece.sub_mem_exprs]
        exact Or.inl (Or.inr ⟨trivial, rfl, a, ha, rfl⟩)
      exact ihargs a ha _ .plain gs (hbind.piece a .plain hpiece).1 (fun _ => Nat.zero_le _) hgs
    rw [Node.tokens, Node.bare, List.append_assoc, List.cons_append,
      hoperand.after_cons (t := .lparen) hprimary]
    have heq := Stack.after_args hargs callee.bare [] spread fs
    exact .of_eq heq

theorem bare_eq_of_tokens {e₁ e₂ : Expr} (h₁ : e₁.IsFormula) (h₂ : e₂.IsFormula)
    (hbind₁ : e₁.OperandsBind .plain) (hbind₂ : e₂.OperandsBind .plain)
    (h : e₁.tokens .plain = e₂.tokens .plain) : e₁.bare = e₂.bare := by
  have hempty : StopsAt [] 0 := fun _ _ _ _ => rfl
  obtain ⟨fs₁, x₁, hread₁, hx₁⟩ := h₁.holds_after _ .plain _ hbind₁ (fun _ => Nat.zero_le _) hempty
  obtain ⟨fs₂, x₂, hread₂, hx₂⟩ := h₂.holds_after _ .plain _ hbind₂ (fun _ => Nat.zero_le _) hempty
  rw [h, hread₂] at hread₁
  cases hread₁
  have hreduced := (hx₁ 0 (Nat.le_refl 0)).symm.trans (hx₂ 0 (Nat.le_refl 0))
  exact (Prod.mk.inj hreduced).2

theorem toList_render (h : e.IsFormula) :
    (AnyNode.render ⟨e⟩ none).toList = (e.tokens .plain).flatMap Token.spell := by
  rw [← h.chars_eq 0 .plain]
  simp [AnyNode.render, AnyNode.print, Node.chars]

end Node.IsFormula

/-- Formulas with the same canonical text differ only in parentheses and ids. -/
theorem rendering_unambiguous {e₁ e₂ : Expr} (h₁ : e₁.IsFormula) (h₂ : e₂.IsFormula)
    (hbind₁ : e₁.OperandsBind .plain) (hbind₂ : e₂.OperandsBind .plain)
    (h : AnyNode.render ⟨e₁⟩ none = AnyNode.render ⟨e₂⟩ none) : e₁.bare = e₂.bare := by
  have htext := congrArg String.toList h
  rw [h₁.toList_render, h₂.toList_render] at htext
  exact h₁.bare_eq_of_tokens h₂ hbind₁ hbind₂ ((h₁.legible .plain).eq_of_text (h₂.legible .plain) htext)

/-- `(a + b) * -(-f(c.d, x[i]...))` -/
def negatedProduct : Expr :=
  .binary 1 (.paren 2 (.binary 3 (.ident 4 "a") .add (.ident 5 "b"))) .mul
    (.unary 6 .neg (.paren 7 (.unary 8 .neg (.call 9 (.ident 10 "f")
      [.selector 11 (.ident 12 "c") ⟨13, "d"⟩, .index 14 (.ident 15 "x") (.ident 16 "i")] true))))

/-- The same product with more parentheses: `(((a + (b))) * -(-(f((c).d, (x[i])...))))`. -/
def wrappedProduct : Expr :=
  .paren 20 (.binary 21 (.paren 22 (.paren 23 (.binary 24 (.ident 25 "a") .add
      (.paren 26 (.ident 27 "b"))))) .mul
    (.unary 28 .neg (.paren 29 (.unary 30 .neg (.paren 31 (.call 32 (.ident 33 "f")
      [.selector 34 (.paren 35 (.ident 36 "c")) ⟨37, "d"⟩,
        .paren 38 (.index 39 (.ident 40 "x") (.ident 41 "i"))] true))))))

theorem negatedProduct_unambiguous :
    AnyNode.render ⟨negatedProduct⟩ none = "(a + b) * -(-f(c.d, x[i]...))" ∧
      AnyNode.render ⟨wrappedProduct⟩ none = "(a + b) * -(-f(c.d, x[i]...))" ∧
      negatedProduct.IsFormula ∧ wrappedProduct.IsFormula ∧
      negatedProduct.OperandsBind .plain ∧ wrappedProduct.OperandsBind .plain ∧
      negatedProduct.bare = wrappedProduct.bare := by
  have ha : AnyNode.render ⟨negatedProduct⟩ none = "(a + b) * -(-f(c.d, x[i]...))" := by decide +kernel
  have hb : AnyNode.render ⟨wrappedProduct⟩ none = "(a + b) * -(-f(c.d, x[i]...))" := by decide +kernel
  have hf : negatedProduct.IsFormula := by
    refine .binary _ _ (.paren _ (.binary _ _ (.ident _ ?_) (.ident _ ?_)))
      (.unary _ _ (.paren _ (.unary _ _ (.call _ _ (.ident _ ?_)
        (List.forall_mem_cons.mpr ⟨.selector _ ?_ (.ident _ ?_),
          List.forall_mem_singleton.mpr (.index _ (.ident _ ?_) (.ident _ ?_))⟩)))))
    all_goals decide
  have hg : wrappedProduct.IsFormula := by
    refine .paren _ (.binary _ _
      (.paren _ (.paren _ (.binary _ _ (.ident _ ?_) (.paren _ (.ident _ ?_)))))
      (.unary _ _ (.paren _ (.unary _ _ (.paren _ (.call _ _ (.ident _ ?_)
        (List.forall_mem_cons.mpr ⟨.selector _ ?_ (.paren _ (.ident _ ?_)),
          List.forall_mem_singleton.mpr (.paren _ (.index _ (.ident _ ?_) (.ident _ ?_)))⟩)))))))
    all_goals decide
  have hbind : negatedProduct.OperandsBind .plain := forall_shows_binds_iff.mpr (by decide +kernel)
  have hbind' : wrappedProduct.OperandsBind .plain := forall_shows_binds_iff.mpr (by decide +kernel)
  exact ⟨ha, hb, hf, hg, hbind, hbind', rendering_unambiguous hf hg hbind hbind' (ha.trans hb.symm)⟩

end ConvSweep
