import ConvSweep.Proofs.Pieces

/-! # Changing the children of a node

`Node.mapChildren` changes each child of a node. A node with other children is printed with the same
texts, into the same slots.
-/

namespace ConvSweep

def AnyNode.map (f : ∀ {c : Category}, Node c → Node c) (n : AnyNode) : AnyNode := ⟨f n.node⟩

/-- The node with each of its children changed. -/
def Node.mapChildren (f : ∀ {c : Category}, Node c → Node c) {c : Category} : Node c → Node c
  | .file id package decls => .file id package (decls.map f)
  | .gen id keyword specs grouped => .gen id keyword (specs.map f) grouped
  | .func id recv name type body => .func id (recv.map f) name (f type) (body.map f)
  | .importSpec id name path => .importSpec id name path
  | .valueSpec id names type values => .valueSpec id names (type.map f) (values.map f)
  | .typeSpec id name isAlias type => .typeSpec id name isAlias (f type)
  | .field id names type => .field id names (f type)
  | .signature id params results => .signature id (params.map f) (results.map f)
  | .block id stmts => .block id (stmts.map f)
  | .caseClause id list body => .caseClause id (list.map f) (body.map f)
  | .commClause id comm body => .commClause id (comm.map f) (body.map f)
  | .exprStmt id x => .exprStmt id (f x)
  | .assign id lhs op rhs => .assign id (lhs.map f) op (rhs.map f)
  | .incDec id x inc => .incDec id (f x) inc
  | .returnStmt id results => .returnStmt id (results.map f)
  | .blockStmt id stmts => .blockStmt id (stmts.map f)
  | .ifStmt id init cond body els => .ifStmt id (init.map f) (f cond) (f body) (els.map f)
  | .forStmt id init cond post body =>
    .forStmt id (init.map f) (cond.map f) (post.map f) (f body)
  | .rangeStmt id key value define x body =>
    .rangeStmt id (key.map f) (value.map f) define (f x) (f body)
  | .switchStmt id init tag clauses => .switchStmt id (init.map f) (tag.map f) (clauses.map f)
  | .typeSwitch id init guard clauses => .typeSwitch id (init.map f) (f guard) (clauses.map f)
  | .selectStmt id clauses => .selectStmt id (clauses.map f)
  | .goStmt id x => .goStmt id (f x)
  | .deferStmt id x => .deferStmt id (f x)
  | .send id chan value => .send id (f chan) (f value)
  | .labeled id label stmt => .labeled id label (f stmt)
  | .branch id kind label => .branch id kind label
  | .declStmt id decl => .declStmt id (f decl)
  | .ident id name => .ident id name
  | .basicLit id kind text => .basicLit id kind text
  | .composite id type elts => .composite id (type.map f) (elts.map f)
  | .funcLit id type body => .funcLit id (f type) (f body)
  | .paren id x => .paren id (f x)
  | .selector id x sel => .selector id (f x) sel
  | .index id x i => .index id (f x) (f i)
  | .slice id x low high max => .slice id (f x) (low.map f) (high.map f) (max.map f)
  | .typeAssert id x type => .typeAssert id (f x) (type.map f)
  | .call id callee args spread => .call id (f callee) (args.map f) spread
  | .star id x => .star id (f x)
  | .unary id op x => .unary id op (f x)
  | .binary id x op y => .binary id (f x) op (f y)
  | .keyValue id key value => .keyValue id (f key) (f value)
  | .arrayType id len elem => .arrayType id (len.map f) (f elem)
  | .structType id fields => .structType id (fields.map f)
  | .funcType id params results => .funcType id (params.map f) (results.map f)
  | .interfaceType id methods => .interfaceType id (methods.map f)
  | .mapType id key value => .mapType id (f key) (f value)
  | .chanType id dir value => .chanType id dir (f value)
  | .ellipsis id elt => .ellipsis id (elt.map f)

namespace Slot

variable {c : Category} {f g : ∀ {c : Category}, Node c → Node c} {name : String}

theorem forall_many_iff {nodes : List (Node c)} :
    (∀ s ∈ many name nodes, f s.2.node = g s.2.node) ↔ nodes.map f = nodes.map g := by
  simp only [many, List.mem_mapIdx, List.map_inj_left]
  constructor
  · intro h n hn
    obtain ⟨i, hi, rfl⟩ := List.mem_iff_getElem.mp hn
    exact h _ ⟨i, hi, rfl⟩
  · rintro h _ ⟨i, hi, rfl⟩
    exact h _ (List.getElem_mem hi)

theorem forall_one_iff {node : Node c} :
    (∀ s ∈ one name node, f s.2.node = g s.2.node) ↔ f node = g node := by
  simp [one]

theorem forall_opt_iff {node : Option (Node c)} :
    (∀ s ∈ opt name node, f s.2.node = g s.2.node) ↔ node.map f = node.map g := by
  cases node <;> simp [opt]

end Slot

theorem Node.mapChildren_congr {f g : ∀ {c : Category}, Node c → Node c} {c : Category} {n : Node c}
    (h : ∀ {d : Category} (m : Node d), ⟨m⟩ ∈ (⟨n⟩ : AnyNode).children → f m = g m) :
    n.mapChildren f = n.mapChildren g := by
  have hslots : ∀ s ∈ n.children, f s.2.node = g s.2.node :=
    fun s hs => h s.2.node (List.mem_map_of_mem hs)
  cases n
  all_goals
    simp only [Node.children, List.forall_mem_append, Slot.forall_many_iff, Slot.forall_one_iff,
      Slot.forall_opt_iff] at hslots
    simp only [mapChildren, hslots]

/-- The number of nodes in a tree. -/
def AnyNode.size (n : AnyNode) : Nat := n.nodes.length

theorem AnyNode.size_lt_of_mem_children {n m : AnyNode} (h : m ∈ n.children) : m.size < n.size := by
  obtain ⟨before, after, hchildren⟩ := List.append_of_mem h
  simp only [size, nodes_eq n, hchildren, List.length_cons, List.flatMap_append, List.flatMap_cons,
    List.length_append]
  omega

/-- Changes a whole tree. What becomes of a node is made of the node as it was and of the node with
its children changed. -/
def Node.rebuild (f : ∀ {c : Category}, Node c → Node c → Node c) {c : Category} (n : Node c) :
    Node c :=
  -- Every child passes the test, which only lets the recursion end.
  f n <| n.mapChildren fun m => if AnyNode.size ⟨m⟩ < AnyNode.size ⟨n⟩ then m.rebuild f else m
termination_by AnyNode.size ⟨n⟩

theorem Node.rebuild_eq (f : ∀ {c : Category}, Node c → Node c → Node c) {c : Category} (n : Node c) :
    n.rebuild f = f n (n.mapChildren (·.rebuild f)) := by
  rw [rebuild]
  congr 1
  exact mapChildren_congr fun m hm => if_pos (AnyNode.size_lt_of_mem_children hm)

namespace Slot

variable {c : Category} (f : ∀ {c : Category}, Node c → Node c)

@[simp] theorem many_map (name : String) (nodes : List (Node c)) :
    many name (nodes.map f) = (many name nodes).map fun s => (s.1, s.2.map f) := by
  apply List.ext_getElem
  · simp [many]
  · intro i _ _
    rw [List.getElem_map]
    simp only [many, List.getElem_mapIdx, List.getElem_map]
    rfl

@[simp] theorem one_map (name : String) (node : Node c) :
    one name (f node) = (one name node).map fun s => (s.1, s.2.map f) := rfl

@[simp] theorem opt_map (name : String) (node : Option (Node c)) :
    opt name (node.map f) = (opt name node).map fun s => (s.1, s.2.map f) := by
  cases node <;> rfl

end Slot

theorem Node.children_mapChildren (f : ∀ {c : Category}, Node c → Node c) {c : Category}
    (n : Node c) : (n.mapChildren f).children = n.children.map fun s => (s.1, s.2.map f) := by
  cases n <;> simp [mapChildren, Node.children]

@[simp] theorem Node.id_mapChildren (f : ∀ {c : Category}, Node c → Node c) {c : Category}
    (n : Node c) : (n.mapChildren f).id = n.id := by
  cases n <;> rfl

/-- What matters of a face in a slot, inside or outside a statement header. -/
def Face.seen (f : Face) (inHeader : Bool) : Face :=
  ⟨f.precedence, f.opening, inHeader && f.exposesComposite⟩

@[simp] theorem Face.seen_true (f : Face) : f.seen true = f := rfl

theorem Face.needsParens_seen (f : Face) (ctx : Ctx) :
    (f.seen ctx.inHeader).needsParens ctx = f.needsParens ctx := by
  unfold needsParens seen
  cases ctx.inHeader <;> rfl

theorem Node.seen_face_mapChildren (inHeader : Bool) {f : ∀ {c : Category}, Node c → Node c}
    {shown shown' : NodeId → Option Face} {e : Expr} (hid : shown e.id = none)
    (hid' : shown' e.id = none)
    (hchild : ∀ x : Expr, ⟨x⟩ ∈ AnyNode.children ⟨e⟩ →
      ((f x).face shown').seen inHeader = (x.face shown).seen inHeader)
    (htype : ∀ id t elts, e = .composite id (some t) elts → (f t).isTypeName = t.isTypeName) :
    ((e.mapChildren f).face shown').seen inHeader = (e.face shown).seen inHeader := by
  unfold Node.face
  rw [id_mapChildren, hid, hid']
  cases e
  case binary | unary | star | call | selector | index | slice | typeAssert =>
    simp [AnyNode.children, Node.children, or_imp, forall_and, Face.seen] at hchild
    simp [mapChildren, hchild, Face.seen, Bool.and_or_distrib_left]
  case composite id type elts =>
    cases type with
    | none => rfl
    | some t => simp [mapChildren, htype id t elts rfl]
  case funcType id params results => cases results <;> rfl
  all_goals rfl

def Node.isFuncType {c : Category} : Node c → Bool
  | .funcType .. => true
  | _ => false

theorem Node.isFuncType_mapChildren (f : ∀ {c : Category}, Node c → Node c) {c : Category}
    (n : Node c) : (n.mapChildren f).isFuncType = n.isFuncType := by
  cases n <;> rfl

/-! ## Pieces -/

/-- The piece with its node changed. -/
def Piece.mapNodes (f : ∀ {c : Category}, Node c → Node c) : Piece → Piece
  | .text s => .text s
  | .line k => .line k
  | .sub k ctx m => .sub k ctx (m.map f)

/-- A field keeps its id and its names. -/
def KeepsFields (f : ∀ {c : Category}, Node c → Node c) : Prop :=
  ∀ id names type, f (.field id names type) = .field id names (f type)

namespace Piece

variable {c : Category} (f : ∀ {c : Category}, Node c → Node c)

@[simp] theorem mapNodes_text (s : String) : mapNodes f (.text s) = .text s := rfl
@[simp] theorem mapNodes_line (k : Nat) : mapNodes f (.line k) = .line k := rfl
@[simp] theorem mapNodes_sub (k : Nat) (ctx : Ctx) (m : AnyNode) :
    mapNodes f (.sub k ctx m) = .sub k ctx (m.map f) := rfl
@[simp] theorem mapNodes_child (ctx : Ctx) (n : Node c) :
    mapNodes f (child ctx n) = child ctx (f n) := rfl

theorem map_separated (g : Piece → Piece) (hg : ∀ s, g (.text s) = .text s) (sep : String)
    (parts : List (List Piece)) :
    (separated sep parts).map g = separated sep (parts.map (·.map g)) := by
  fun_induction separated sep parts with
  | case1 => rfl
  | case2 part => rfl
  | case3 part parts hne ih =>
    cases parts with
    | nil => exact absurd rfl hne
    | cons p ps =>
      rw [List.map_append, List.map_cons, ih, hg]
      rfl

@[simp] theorem map_exprs (ctx : Ctx) (es : List (Node .expr)) :
    (exprs ctx es).map (mapNodes f) = exprs ctx (es.map f) := by
  rw [exprs, map_separated _ (mapNodes_text f), exprs, List.map_map, List.map_map]
  rfl

@[simp] theorem map_fields (sep : String) (fs : List (Node .field)) :
    (fields sep fs).map (mapNodes f) = fields sep (fs.map f) := by
  rw [fields, map_separated _ (mapNodes_text f), fields, List.map_map, List.map_map]
  rfl

@[simp] theorem map_lines (k : Nat) (ns : List (Node c)) :
    (lines k ns).map (mapNodes f) = lines k (ns.map f) := by
  rw [lines, lines, List.map_flatMap, List.flatMap_map]
  rfl

@[simp] theorem map_topLevel (ds : List (Node (.decl .top))) :
    (topLevel ds).map (mapNodes f) = topLevel (ds.map f) := by
  rw [topLevel, topLevel, List.map_flatMap, List.flatMap_map]
  rfl

@[simp] theorem map_optional (ctx : Ctx) (n : Option (Node c)) :
    (optional ctx n).map (mapNodes f) = optional ctx (n.map f) := by
  cases n <;> rfl

@[simp] theorem map_headerInit (n : Option (Node .stmt)) :
    (headerInit n).map (mapNodes f) = headerInit (n.map f) := by
  cases n <;> rfl

theorem method_eq (id : NodeId) (names : List Ident) (type : Node .expr)
    (h : names = [] ∨ type.isFuncType = false) :
    method (.field id names type) = [child .plain (.field id names type)] := by
  cases names with
  | nil => rfl
  | cons name names =>
    have htype := h.resolve_left (by simp)
    cases type <;> first | rfl | simp [Node.isFuncType] at htype

variable {f} (hf : KeepsFields f)

include hf

theorem map_paramsAndResults (params results : List (Node .field)) :
    (paramsAndResults params results).map (mapNodes f) =
      paramsAndResults (params.map f) (results.map f) := by
  have h : ∀ g : Node .field, ∃ id names type, g = .field id names type := by
    intro g
    cases g
    exact ⟨_, _, _, rfl⟩
  match results with
  | [] => simp [paramsAndResults]
  | [g] =>
    obtain ⟨id, names, type, rfl⟩ := h g
    cases names <;> simp [paramsAndResults, hf _ _ _]
  | g :: g' :: gs => simp [paramsAndResults]

theorem map_method (g : Node .field)
    (h : ∀ id name names type, g = .field id (name :: names) type →
      type.isFuncType = true ∨ (f type).isFuncType = true → f type = type.mapChildren f) :
    (method g).map (mapNodes f) = method (f g) := by
  cases g with
  | field id names type =>
    have hfield : f (.field id names type) = .field id names (f type) := hf id names type
    by_cases hplain : names = [] ∨ type.isFuncType = false ∧ (f type).isFuncType = false
    · rw [hfield, method_eq _ _ _ (hplain.imp_right And.left),
        method_eq _ _ _ (hplain.imp_right And.right), ← hfield]
      rfl
    · have hfun : type.isFuncType = true ∨ (f type).isFuncType = true := by grind
      obtain ⟨name, names, rfl⟩ := List.exists_cons_of_ne_nil (mt Or.inl hplain)
      have heq : f type = type.mapChildren f := h id name names type rfl hfun
      rw [heq, Node.isFuncType_mapChildren, or_self] at hfun
      cases type <;> simp [Node.isFuncType] at hfun
      simp [method, hfield, heq, Node.mapChildren, map_paramsAndResults hf]

end Piece

open Piece in
theorem Node.pieces_mapChildren {f : ∀ {c : Category}, Node c → Node c} (hf : KeepsFields f)
    {shows shows' : Ctx → Expr → Bool} {ctx : Ctx} {c : Category} (n : Node c)
    (hparen : ∀ id x, (⟨n⟩ : AnyNode) = ⟨.paren id x⟩ → shows' ctx (f x) = shows ctx x)
    (hmethods : ∀ id fs, (⟨n⟩ : AnyNode) = ⟨.interfaceType id fs⟩ →
      ∀ g ∈ fs, (method g).map (mapNodes f) = method (f g)) :
    (n.mapChildren f).pieces shows' ctx = (n.pieces shows ctx).map (mapNodes f) := by
  have hparams := map_paramsAndResults hf
  cases n
  case paren id x =>
    simp only [mapChildren, Node.pieces, hparen id x rfl]
    split <;> rfl
  case interfaceType id fs =>
    have hmap : (methods fs).map (mapNodes f) = methods (fs.map f) := by
      rw [methods, map_separated _ (mapNodes_text f), methods, List.map_map, List.map_map]
      exact congrArg _ (List.map_congr_left fun g hg => hmethods id fs rfl g hg)
    simp only [Node.pieces, mapChildren, List.map_append, List.isEmpty_map]
    split
    · rfl
    · simp [hmap]
  case gen id keyword specs grouped =>
    cases grouped <;> cases specs <;> simp [Node.pieces, mapChildren]
  -- What is printed for a part that may be missing depends on whether it is there.
  case func id recv name type body =>
    cases recv <;> cases body <;> simp [Node.pieces, mapChildren]
  case valueSpec id names type values =>
    cases type <;> cases values <;> simp [Node.pieces, mapChildren]
  case caseClause id list body => cases list <;> simp [Node.pieces, mapChildren]
  case commClause id comm body => cases comm <;> simp [Node.pieces, mapChildren]
  case returnStmt id results => cases results <;> simp [Node.pieces, mapChildren]
  case ifStmt id init cond body els => cases els <;> simp [Node.pieces, mapChildren]
  case forStmt id init cond post body =>
    cases init <;> cases cond <;> cases post <;> simp [Node.pieces, mapChildren]
  case rangeStmt id key value define x body =>
    cases key <;> cases value <;> simp [Node.pieces, mapChildren]
  case switchStmt id init tag clauses => cases tag <;> simp [Node.pieces, mapChildren]
  case slice id x low high max => cases max <;> simp [Node.pieces, mapChildren]
  case typeAssert id x type => cases type <;> simp [Node.pieces, mapChildren]
  case structType id fs => cases fs <;> simp [Node.pieces, mapChildren]
  all_goals simp [Node.pieces, mapChildren, hparams]

end ConvSweep
