import ConvSweep.Proofs.Children

/-! # Taking conversions out of a tree

`Node.prune` is the tree that is left when some conversions are replaced by their arguments.
-/

namespace ConvSweep

/-- How the argument of a conversion that is taken out stays behind. -/
inductive Remnant
  | bare
  | wrapped
  deriving DecidableEq, Repr

/-- The conversions to take out, by their ids. -/
abbrev Plan := NodeId → Option Remnant

theorem Option.sizeOf_lt_of_attach {α : Type} [SizeOf α] {o : Option α} (a : { a // o = some a }) :
    sizeOf a.1 < sizeOf o := by
  obtain ⟨a, rfl⟩ := a
  simp

/-- Takes conversions out. Parentheses that stay behind keep the id of the conversion. -/
def Node.prune (plan : Plan) : {c : Category} → Node c → Node c
  | _, .file id package decls => .file id package (decls.map (·.prune plan))
  | _, .gen id keyword specs grouped => .gen id keyword (specs.map (·.prune plan)) grouped
  | _, .func id recv name type body =>
    .func id (recv.attach.map fun n => n.1.prune plan) name (type.prune plan)
      (body.attach.map fun n => n.1.prune plan)
  | _, .importSpec id name path => .importSpec id name path
  | _, .valueSpec id names type values =>
    .valueSpec id names (type.attach.map fun n => n.1.prune plan) (values.map (·.prune plan))
  | _, .typeSpec id name isAlias type => .typeSpec id name isAlias (type.prune plan)
  | _, .field id names type => .field id names (type.prune plan)
  | _, .signature id params results =>
    .signature id (params.map (·.prune plan)) (results.map (·.prune plan))
  | _, .block id stmts => .block id (stmts.map (·.prune plan))
  | _, .caseClause id list body =>
    .caseClause id (list.map (·.prune plan)) (body.map (·.prune plan))
  | _, .commClause id comm body =>
    .commClause id (comm.attach.map fun n => n.1.prune plan) (body.map (·.prune plan))
  | _, .exprStmt id x => .exprStmt id (x.prune plan)
  | _, .assign id lhs op rhs => .assign id (lhs.map (·.prune plan)) op (rhs.map (·.prune plan))
  | _, .incDec id x inc => .incDec id (x.prune plan) inc
  | _, .returnStmt id results => .returnStmt id (results.map (·.prune plan))
  | _, .blockStmt id stmts => .blockStmt id (stmts.map (·.prune plan))
  | _, .ifStmt id init cond body els =>
    .ifStmt id (init.attach.map fun n => n.1.prune plan) (cond.prune plan) (body.prune plan)
      (els.attach.map fun n => n.1.prune plan)
  | _, .forStmt id init cond post body =>
    .forStmt id (init.attach.map fun n => n.1.prune plan) (cond.attach.map fun n => n.1.prune plan)
      (post.attach.map fun n => n.1.prune plan) (body.prune plan)
  | _, .rangeStmt id key value define x body =>
    .rangeStmt id (key.attach.map fun n => n.1.prune plan)
      (value.attach.map fun n => n.1.prune plan) define (x.prune plan) (body.prune plan)
  | _, .switchStmt id init tag clauses =>
    .switchStmt id (init.attach.map fun n => n.1.prune plan)
      (tag.attach.map fun n => n.1.prune plan) (clauses.map (·.prune plan))
  | _, .typeSwitch id init guard clauses =>
    .typeSwitch id (init.attach.map fun n => n.1.prune plan) (guard.prune plan)
      (clauses.map (·.prune plan))
  | _, .selectStmt id clauses => .selectStmt id (clauses.map (·.prune plan))
  | _, .goStmt id x => .goStmt id (x.prune plan)
  | _, .deferStmt id x => .deferStmt id (x.prune plan)
  | _, .send id chan value => .send id (chan.prune plan) (value.prune plan)
  | _, .labeled id label stmt => .labeled id label (stmt.prune plan)
  | _, .branch id kind label => .branch id kind label
  | _, .declStmt id decl => .declStmt id (decl.prune plan)
  | _, .ident id name => .ident id name
  | _, .basicLit id kind text => .basicLit id kind text
  | _, .composite id type elts =>
    .composite id (type.attach.map fun n => n.1.prune plan) (elts.map (·.prune plan))
  | _, .funcLit id type body => .funcLit id (type.prune plan) (body.prune plan)
  | _, .paren id x => .paren id (x.prune plan)
  | _, .selector id x sel => .selector id (x.prune plan) sel
  | _, .index id x i => .index id (x.prune plan) (i.prune plan)
  | _, .slice id x low high max =>
    .slice id (x.prune plan) (low.attach.map fun n => n.1.prune plan)
      (high.attach.map fun n => n.1.prune plan) (max.attach.map fun n => n.1.prune plan)
  | _, .typeAssert id x type =>
    .typeAssert id (x.prune plan) (type.attach.map fun n => n.1.prune plan)
  | _, .call id callee [arg] spread =>
    match plan id with
    | some .bare => arg.prune plan
    | some .wrapped => .paren id (arg.prune plan)
    | none => .call id (callee.prune plan) [arg.prune plan] spread
  | _, .call id callee args spread =>
    .call id (callee.prune plan) (args.map (·.prune plan)) spread
  | _, .star id x => .star id (x.prune plan)
  | _, .unary id op x => .unary id op (x.prune plan)
  | _, .binary id x op y => .binary id (x.prune plan) op (y.prune plan)
  | _, .keyValue id key value => .keyValue id (key.prune plan) (value.prune plan)
  | _, .arrayType id len elem =>
    .arrayType id (len.attach.map fun n => n.1.prune plan) (elem.prune plan)
  | _, .structType id fields => .structType id (fields.map (·.prune plan))
  | _, .funcType id params results =>
    .funcType id (params.map (·.prune plan)) (results.map (·.prune plan))
  | _, .interfaceType id methods => .interfaceType id (methods.map (·.prune plan))
  | _, .mapType id key value => .mapType id (key.prune plan) (value.prune plan)
  | _, .chanType id dir value => .chanType id dir (value.prune plan)
  | _, .ellipsis id elt => .ellipsis id (elt.attach.map fun n => n.1.prune plan)
termination_by _ n => sizeOf n
decreasing_by
  all_goals first
    | have := List.sizeOf_lt_of_mem ‹_ ∈ _›; simp; omega
    | have := Option.sizeOf_lt_of_attach n; simp; omega
    | simp <;> omega

/-! ## What changes -/

namespace Node

variable {c : Category}

/-- How the node is taken out, if it is. -/
def remnant? (plan : Plan) : Node c → Option Remnant
  | .call id _ [_] _ => plan id
  | _ => none

theorem isFuncType_prune {plan : Plan} {n : Node c} (h : n.isFuncType = true) :
    (n.prune plan).isFuncType = true := by
  cases n <;> simp [isFuncType] at h
  simp [isFuncType, Node.prune]

/-- The signatures of the methods in an interface are written without `func`. This says that no
method gets a signature only because a conversion around it goes. -/
def MethodTypesStay (plan : Plan) : Node c → Prop
  | .interfaceType _ methods => ∀ id name names type, .field id (name :: names) type ∈ methods →
      (type.prune plan).isFuncType = true → type.isFuncType = true
  | _ => True

/-- No conversion that goes has one that goes inside its callee. -/
def CalleesStay (plan : Plan) (n : Node c) : Prop :=
  ∀ id callee arg spread, ⟨.call id callee [arg] spread⟩ ∈ AnyNode.nodes ⟨n⟩ → plan id ≠ none →
    ∀ x ∈ AnyNode.nodes ⟨callee⟩, plan x.id = none

end Node

def AnyNode.prune (plan : Plan) (n : AnyNode) : AnyNode := ⟨n.node.prune plan⟩

def Piece.prune (plan : Plan) : Piece → Piece
  | .text s => .text s
  | .line k => .line k
  | .sub k ctx m => .sub k ctx (m.prune plan)

theorem Node.prune_eq_mapChildren {c : Category} {plan : Plan} {n : Node c}
    (h : n.remnant? plan = none) : n.prune plan = n.mapChildren (·.prune plan) := by
  cases n
  case call id callee args spread =>
    match args, h with
    | [], _ => simp [mapChildren, Node.prune]
    | [arg], h =>
      simp only [remnant?] at h
      simp [mapChildren, Node.prune, h]
    | a :: b :: args, _ => simp [mapChildren, Node.prune]
  all_goals simp only [mapChildren, Node.prune, Option.attach_map_val]

theorem keepsFields_prune (plan : Plan) : KeepsFields (·.prune plan) := by
  intro id names type
  simp only [Node.prune]

namespace Piece

variable {c : Category} (plan : Plan)

theorem prune_eq_mapNodes : prune plan = mapNodes (·.prune plan) := by
  funext p
  cases p <;> rfl

theorem map_prune_method (f : Node .field)
    (h : ∀ id name names type, f = .field id (name :: names) type →
      (type.prune plan).isFuncType = true → type.isFuncType = true) :
    (method f).map (prune plan) = method (f.prune plan) := by
  rw [prune_eq_mapNodes]
  refine map_method (keepsFields_prune plan) f fun id name names type heq hfun => ?_
  have htype : type.isFuncType = true := hfun.elim (fun h => h) (h id name names type heq)
  refine Node.prune_eq_mapChildren ?_
  cases type <;> first | rfl | cases htype

end Piece

theorem Node.written_prune {c : Category} (plan : Plan) (ctx : Ctx) (n : Node c)
    (hn : n.remnant? plan = none) (hm : n.MethodTypesStay plan) :
    (n.prune plan).written ctx = (n.written ctx).map (Piece.prune plan) := by
  rw [prune_eq_mapChildren hn, Piece.prune_eq_mapNodes]
  refine n.pieces_mapChildren (keepsFields_prune plan) (fun _ _ _ => rfl) ?_
  rintro id fs heq g hg
  cases heq
  rw [← Piece.prune_eq_mapNodes]
  exact Piece.map_prune_method plan g fun id name names type he => hm id name names type (he ▸ hg)

end ConvSweep
