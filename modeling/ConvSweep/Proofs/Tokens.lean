import Mathlib.Data.List.Chain
import ConvSweep.Proofs.Reading

/-! # The tokens of an expression

An expression of names and operators is printed as a row of tokens. Of a row in which no name
follows another one, the text determines the tokens.
-/

namespace ConvSweep

open AnyNode

/-! ## Names -/

/-- A letter: one of ASCII, or any character beyond ASCII, among them all other letters. -/
def isLetter (c : Char) : Bool := c.isAlpha || 128 ≤ c.toNat

def isNamePart (c : Char) : Bool := isLetter c || c.isDigit || c = '_'

/-- A letter or an underscore, followed by letters, digits and underscores. -/
def isName (s : String) : Bool :=
  s.toList.head?.any (fun c => isLetter c || c = '_') && s.toList.all isNamePart

/-! ## Tokens -/

inductive Token
  | name (s : String)
  /-- A dot and a name. -/
  | sel (s : String)
  | unary (op : UnaryOp)
  | star
  | binary (op : BinaryOp)
  | lparen
  /-- A closing parenthesis, perhaps after `...`. -/
  | rparen (spread : Bool)
  | lbrack
  | rbrack
  | comma
  deriving DecidableEq

namespace Token

/-- A token as it is printed, with the blanks around binary operators and after commas. -/
def spell : Token → List Char
  | name s => s.toList
  | sel s => '.' :: s.toList
  | unary op => op.spelling.toList
  | star => ['*']
  | binary op => ' ' :: op.spelling.toList ++ [' ']
  | lparen => ['(']
  | rparen spread => if spread then ['.', '.', '.', ')'] else [')']
  | lbrack => ['[']
  | rbrack => [']']
  | comma => [',', ' ']

def isWord : Token → Bool
  | name _ | sel _ => true
  | _ => false

/-- Names are spelled as names. -/
def isProper : Token → Bool
  | name s | sel s => isName s
  | _ => true

/-- Every token that is not spelled with a name. -/
def signs : List Token :=
  [star, lparen, rparen true, rparen false, lbrack, rbrack, comma] ++
    [.pos, .neg, .not, .xor, .addr, .recv].map unary ++
    [.add, .sub, .mul, .quo, .rem, .and, .or, .xor, .shl, .shr, .andNot, .logicalAnd, .logicalOr,
      .eql, .neq, .lss, .gtr, .leq, .geq].map binary

theorem mem_signs {t : Token} (h : t.isWord = false) : t ∈ signs := by
  cases t with
  | name | sel => cases h
  | unary op => cases op <;> decide
  | binary op => cases op <;> decide
  | rparen spread => cases spread <;> decide
  | star | lparen | lbrack | rbrack | comma => decide

theorem eq_of_sign_begins :
    ∀ t ∈ signs, ∀ u ∈ signs, t.spell.isPrefixOf u.spell = true → t = u := by
  decide +kernel

def startsName : Token → Bool
  | name _ => true
  | _ => false

theorem spell_of_not_name {t : Token} (h : t.startsName = false) :
    ∃ c r, t.spell = c :: r ∧ isNamePart c = false := by
  cases t with
  | name => cases h
  | unary op => cases op <;> exact ⟨_, _, rfl, by decide⟩
  | rparen spread => cases spread <;> exact ⟨_, _, rfl, by decide⟩
  | sel | star | binary | lparen | lbrack | rbrack | comma => exact ⟨_, _, rfl, by decide⟩

theorem eq_of_head_dot : ∀ t ∈ signs, t.spell.head? = some '.' → t = rparen true := by
  decide +kernel

theorem exists_cons_of_isName {s : String} (h : isName s = true) :
    ∃ c r, s.toList = c :: r ∧ isNamePart c = true := by
  rw [isName, Bool.and_eq_true] at h
  cases hs : s.toList with
  | nil => simp [hs] at h
  | cons c r =>
    rw [hs, List.all_cons, Bool.and_eq_true] at h
    exact ⟨c, r, rfl, h.2.1⟩

theorem spell_ne_nil {t : Token} (h : t.isProper = true) : t.spell ≠ [] := by
  cases hn : t.startsName with
  | false =>
    obtain ⟨c, r, hspell, -⟩ := spell_of_not_name hn
    simp [hspell]
  | true =>
    cases t with
    | name s =>
      obtain ⟨c, r, hs, -⟩ := exists_cons_of_isName h
      simp [spell, hs]
    | _ => cases hn

/-! ## One token -/

/-- The text does not go on with the name at the end of the token. -/
def EndsBefore (t : Token) (r : List Char) : Prop :=
  t.isWord = true → ∀ c ∈ r.head?, isNamePart c = false

theorem takeWhile_name {s : String} (h : isName s = true) {r : List Char}
    (hr : ∀ c ∈ r.head?, isNamePart c = false) : (s.toList ++ r).takeWhile isNamePart = s.toList := by
  rw [isName, Bool.and_eq_true, List.all_eq_true] at h
  rw [List.takeWhile_append_of_pos h.2]
  cases r with
  | nil => simp
  | cons c r => simp [hr c rfl]

theorem name_eq_of_append {s t : String} (hs : isName s = true) (ht : isName t = true)
    {r u : List Char} (hr : ∀ c ∈ r.head?, isNamePart c = false)
    (hu : ∀ c ∈ u.head?, isNamePart c = false) (h : s.toList ++ r = t.toList ++ u) : s = t := by
  have htake := congrArg (List.takeWhile isNamePart) h
  rw [takeWhile_name hs hr, takeWhile_name ht hu] at htake
  exact String.toList_inj.mp htake

theorem name_ne_of_append {s : String} (hs : isName s = true) {t : Token}
    (ht : t.startsName = false) {r u : List Char} : s.toList ++ r ≠ t.spell ++ u := by
  obtain ⟨c, v, hsv, hc⟩ := exists_cons_of_isName hs
  obtain ⟨d, w, htw, hd⟩ := spell_of_not_name ht
  intro h
  rw [hsv, htw] at h
  rw [(List.cons.inj h).1, hd] at hc
  cases hc

theorem sel_ne_of_append {s : String} (hs : isName s = true) {t : Token} (ht : t.isWord = false)
    {r u : List Char} : (sel s).spell ++ r ≠ t.spell ++ u := by
  obtain ⟨c, v, hsv, hc⟩ := exists_cons_of_isName hs
  intro h
  have hdot : t.spell.head? = some '.' := by
    obtain ⟨d, w, htw, -⟩ := spell_of_not_name (t := t) (by cases t <;> first | rfl | cases ht)
    rw [htw] at h ⊢
    rw [← (List.cons.inj h).1, List.head?_cons]
  obtain rfl := eq_of_head_dot t (mem_signs ht) hdot
  rw [spell, spell, hsv] at h
  obtain rfl : c = '.' := (List.cons.inj (List.cons.inj h).2).1
  cases hc

theorem sign_eq_of_append {t u : Token} (ht : t.isWord = false) (hu : u.isWord = false)
    {r s : List Char} (h : t.spell ++ r = u.spell ++ s) : t = u := by
  rcases List.append_eq_append_iff.mp h with ⟨v, hv, -⟩ | ⟨v, hv, -⟩
  · exact eq_of_sign_begins t (mem_signs ht) u (mem_signs hu)
      (List.isPrefixOf_iff_prefix.mpr ⟨v, hv.symm⟩)
  · exact (eq_of_sign_begins u (mem_signs hu) t (mem_signs ht)
      (List.isPrefixOf_iff_prefix.mpr ⟨v, hv.symm⟩)).symm

theorem cases_word (t : Token) :
    (∃ s, t = name s) ∨ (∃ s, t = sel s) ∨ t.isWord = false ∧ t.startsName = false := by
  cases t <;> simp [isWord, startsName]

theorem eq_of_append {t u : Token} (ht : t.isProper = true) (hu : u.isProper = true)
    {r s : List Char} (hr : t.EndsBefore r) (hs : u.EndsBefore s)
    (h : t.spell ++ r = u.spell ++ s) : t = u := by
  -- How a text begins tells names, selections and signs apart; no part of a name follows a name.
  rcases t.cases_word with ⟨v, rfl⟩ | ⟨v, rfl⟩ | ⟨htw, htn⟩
  · rcases u.cases_word with ⟨w, rfl⟩ | ⟨w, rfl⟩ | ⟨huw, hun⟩
    · rw [name_eq_of_append ht hu (hr rfl) (hs rfl) h]
    · exact (name_ne_of_append ht rfl h).elim
    · exact (name_ne_of_append ht hun h).elim
  · rcases u.cases_word with ⟨w, rfl⟩ | ⟨w, rfl⟩ | ⟨huw, hun⟩
    · exact (name_ne_of_append hu rfl h.symm).elim
    · rw [name_eq_of_append ht hu (hr rfl) (hs rfl) (List.cons.inj h).2]
    · exact (sel_ne_of_append ht huw h).elim
  · rcases u.cases_word with ⟨w, rfl⟩ | ⟨w, rfl⟩ | ⟨huw, hun⟩
    · exact (name_ne_of_append hu htn h.symm).elim
    · exact (sel_ne_of_append hu htw h.symm).elim
    · exact sign_eq_of_append htw huw h

theorem isProper_of_sign {t : Token} (h : t.isWord = false) : t.isProper = true := by
  cases t <;> first | rfl | cases h

/-! ## Rows of tokens -/

/-- A row of proper tokens in which no name follows a name directly. -/
structure Legible (ts : List Token) : Prop where
  proper : ∀ t ∈ ts, t.isProper = true
  spaced : ts.IsChain fun t u => t.isWord = true → u.startsName = false

namespace Legible

variable {t : Token} {ts us : List Token}

theorem tail (h : Legible (t :: ts)) : Legible ts :=
  ⟨fun u hu => h.proper u (List.mem_cons_of_mem _ hu), h.spaced.tail⟩

theorem singleton (h : t.isProper = true) : Legible [t] := ⟨by simpa using h, .singleton t⟩

theorem cons (h : Legible ts) (ht : t.isWord = false) : Legible (t :: ts) := by
  refine ⟨List.forall_mem_cons.mpr ⟨isProper_of_sign ht, h.proper⟩,
    List.isChain_cons.mpr ⟨fun u _ hword => ?_, h.spaced⟩⟩
  rw [ht] at hword
  cases hword

theorem append (hts : Legible ts) (hus : Legible (t :: us)) (h : t.startsName = false) :
    Legible (ts ++ t :: us) := by
  refine ⟨List.forall_mem_append.mpr ⟨hts.proper, hus.proper⟩,
    List.isChain_append.mpr ⟨hts.spaced, hus.spaced, fun _ _ u hu _ => ?_⟩⟩
  cases hu
  exact h

theorem endsBefore (h : Legible (t :: ts)) : t.EndsBefore (ts.flatMap spell) := by
  intro ht c hc
  cases ts with
  | nil => simp at hc
  | cons u us =>
    obtain ⟨d, r, hspell, hd⟩ := spell_of_not_name ((List.isChain_cons_cons.mp h.spaced).1 ht)
    rw [List.flatMap_cons, hspell] at hc
    cases hc
    exact hd

theorem eq_of_text (hts : Legible ts) (hus : Legible us)
    (h : ts.flatMap spell = us.flatMap spell) : ts = us := by
  induction ts generalizing us with
  | nil =>
    cases us with
    | nil => rfl
    | cons u us =>
      have hnil := (List.append_eq_nil_iff.mp h.symm).1
      exact (spell_ne_nil (hus.proper u List.mem_cons_self) hnil).elim
  | cons t ts ih =>
    cases us with
    | nil =>
      have hnil := (List.append_eq_nil_iff.mp h).1
      exact (spell_ne_nil (hts.proper t List.mem_cons_self) hnil).elim
    | cons u us =>
      rw [List.flatMap_cons, List.flatMap_cons] at h
      obtain rfl := eq_of_append (hts.proper t List.mem_cons_self)
        (hus.proper u List.mem_cons_self) hts.endsBefore hus.endsBefore h
      rw [ih hts.tail hus.tail (List.append_cancel_left h)]

end Legible

/-- Rows with commas between them. -/
def listed : List (List Token) → List Token
  | [] => []
  | [ts] => ts
  | ts :: tss => ts ++ comma :: listed tss

theorem legible_listed {tss : List (List Token)} (h : ∀ ts ∈ tss, Legible ts) :
    Legible (listed tss) := by
  fun_induction listed tss with
  | case1 => exact ⟨by simp, .nil⟩
  | case2 ts => exact h ts (by simp)
  | case3 ts tss _ ih =>
    have hrest : Legible (listed tss) := ih fun us hus => h us (List.mem_cons_of_mem _ hus)
    exact (h ts List.mem_cons_self).append (hrest.cons rfl) rfl

end Token

/-! ## Expressions -/

/-- An expression of names, operators, selectors, index expressions, calls and parentheses. -/
inductive Node.IsFormula : Expr → Prop
  | ident (id : NodeId) {name : String} (h : isName name = true) : IsFormula (.ident id name)
  | paren (id : NodeId) {x : Expr} (h : IsFormula x) : IsFormula (.paren id x)
  | unary (id : NodeId) (op : UnaryOp) {x : Expr} (h : IsFormula x) : IsFormula (.unary id op x)
  | star (id : NodeId) {x : Expr} (h : IsFormula x) : IsFormula (.star id x)
  | binary (id : NodeId) (op : BinaryOp) {x y : Expr} (hx : IsFormula x) (hy : IsFormula y) :
      IsFormula (.binary id x op y)
  | selector (id : NodeId) {sel : Ident} (hsel : isName sel.name = true) {x : Expr}
      (h : IsFormula x) : IsFormula (.selector id x sel)
  | index (id : NodeId) {x i : Expr} (hx : IsFormula x) (hi : IsFormula i) :
      IsFormula (.index id x i)
  | call (id : NodeId) (spread : Bool) {callee : Expr} {args : List Expr} (h : IsFormula callee)
      (hargs : ∀ a ∈ args, IsFormula a) : IsFormula (.call id callee args spread)

namespace Node

/-- The tokens of a formula in a slot with the context `ctx`, in the canonical style. -/
def tokens : {c : Category} → Node c → Ctx → List Token
  | _, .ident _ name, _ => [.name name]
  | _, .paren _ x, ctx =>
    if (x.face fun _ => none).needsParens ctx then .lparen :: x.tokens .plain ++ [.rparen false]
    else x.tokens ctx
  | _, .unary _ op x, ctx => .unary op :: x.tokens (ctx.operand unaryPrec op.spelling)
  | _, .star _ x, ctx => .star :: x.tokens (ctx.operand unaryPrec "*")
  | _, .binary _ x op y, ctx =>
    x.tokens (ctx.prec op.precedence) ++
      .binary op :: y.tokens (ctx.operand (op.precedence + 1) op.spelling)
  | _, .selector _ x sel, ctx => x.tokens (ctx.prec primaryPrec) ++ [.sel sel.name]
  | _, .index _ x i, ctx =>
    x.tokens (ctx.prec primaryPrec) ++ .lbrack :: i.tokens .plain ++ [.rbrack]
  | _, .call _ callee args spread, ctx =>
    callee.tokens (ctx.prec primaryPrec) ++
      .lparen :: Token.listed (args.map (·.tokens .plain)) ++ [.rparen spread]
  | _, _, _ => []
termination_by _ n => sizeOf n
decreasing_by
  all_goals try have := List.sizeOf_lt_of_mem ‹_ ∈ _›
  all_goals simp
  all_goals omega

end Node

namespace Node.IsFormula

variable {e : Expr}

theorem legible (h : e.IsFormula) : ∀ ctx, Token.Legible (e.tokens ctx) := by
  induction h with
  | ident id h =>
    intro ctx
    rw [Node.tokens]
    exact .singleton h
  | paren id _ ih =>
    intro ctx
    rw [Node.tokens]
    split
    · exact ((ih _).cons rfl).append (.singleton rfl) rfl
    · exact ih ctx
  | unary id op _ ih =>
    intro ctx
    rw [Node.tokens]
    exact (ih _).cons rfl
  | star id _ ih =>
    intro ctx
    rw [Node.tokens]
    exact (ih _).cons rfl
  | binary id op _ _ ihx ihy =>
    intro ctx
    rw [Node.tokens]
    exact (ihx _).append ((ihy _).cons rfl) rfl
  | selector id hsel _ ih =>
    intro ctx
    rw [Node.tokens]
    exact (ih _).append (.singleton hsel) rfl
  | index id _ _ ihx ihi =>
    intro ctx
    rw [Node.tokens]
    exact ((ihx _).append ((ihi _).cons rfl) rfl).append (.singleton rfl)
      rfl
  | @call id spread callee args _ _ ih ihargs =>
    intro ctx
    rw [Node.tokens]
    have hargs : Token.Legible (Token.listed (args.map (·.tokens .plain))) :=
      Token.legible_listed (by simpa using fun a ha => ihargs a ha .plain)
    exact ((ih _).append (hargs.cons rfl) rfl).append (.singleton rfl)
      rfl

theorem chars_child (style : Style) (depth : Nat) (ctx : Ctx) (x : Expr) :
    (Piece.child ctx x).chars style depth = x.chars style depth ctx := rfl

theorem chars_args {args : List Expr} {depth : Nat}
    (h : ∀ a ∈ args, a.chars .canonical depth .plain = (a.tokens .plain).flatMap Token.spell) :
    (Piece.exprs .plain args).flatMap (Piece.chars .canonical depth) =
      (Token.listed (args.map (·.tokens .plain))).flatMap Token.spell := by
  induction args with
  | nil => rfl
  | cons a args ih =>
    have ha := h a List.mem_cons_self
    have hargs := ih fun b hb => h b (List.mem_cons_of_mem _ hb)
    cases args with
    | nil =>
      have hone : Piece.exprs .plain [a] = [Piece.child .plain a] := rfl
      rw [hone]
      simpa [chars_child, Token.listed] using ha
    | cons b args =>
      have hmore : Piece.exprs .plain (a :: b :: args) =
          Piece.child .plain a :: .text ", " :: Piece.exprs .plain (b :: args) := rfl
      have hlisted : Token.listed ((a :: b :: args).map (·.tokens .plain)) =
          a.tokens .plain ++ .comma :: Token.listed ((b :: args).map (·.tokens .plain)) := rfl
      rw [hmore, hlisted, List.flatMap_cons, List.flatMap_cons, hargs, List.flatMap_append,
        List.flatMap_cons, chars_child, ha]
      simp [Token.spell]

theorem chars_eq (h : e.IsFormula) :
    ∀ depth ctx, e.chars .canonical depth ctx = (e.tokens ctx).flatMap Token.spell := by
  induction h with
  | ident id h =>
    intro depth ctx
    rw [Node.chars_eq rfl, Node.tokens, Node.pieces]
    simp [Token.spell]
  | paren id _ ih =>
    intro depth ctx
    rw [Node.chars_paren rfl, Node.tokens, ih]
    cases hneeds : Style.canonical.showsParens ctx _ with
    | true =>
      have hneeds' : Face.needsParens _ ctx = true := hneeds
      simp [hneeds', wrap, Token.spell]
    | false =>
      have hneeds' : Face.needsParens _ ctx = false := hneeds
      simp [hneeds', wrap]
  | unary id op _ ih =>
    intro depth ctx
    rw [Node.chars_eq rfl, Node.tokens, Node.pieces]
    simp [Token.spell, chars_child, ih]
  | star id _ ih =>
    intro depth ctx
    rw [Node.chars_eq rfl, Node.tokens, Node.pieces]
    simp [Token.spell, chars_child, ih]
  | binary id op _ _ ihx ihy =>
    intro depth ctx
    rw [Node.chars_eq rfl, Node.tokens, Node.pieces]
    simp [Token.spell, chars_child, ihx, ihy, toString]
  | selector id hsel _ ih =>
    intro depth ctx
    rw [Node.chars_eq rfl, Node.tokens, Node.pieces]
    simp [Token.spell, chars_child, ih]
  | index id _ _ ihx ihi =>
    intro depth ctx
    rw [Node.chars_eq rfl, Node.tokens, Node.pieces]
    simp [Token.spell, chars_child, ihx, ihi]
  | call id spread _ _ ih ihargs =>
    intro depth ctx
    have hargs := chars_args fun a ha => ihargs a ha depth .plain
    rw [Node.chars_eq rfl, Node.tokens, Node.pieces]
    cases spread <;> simp [Token.spell, chars_child, ih, hargs]

end Node.IsFormula

end ConvSweep
