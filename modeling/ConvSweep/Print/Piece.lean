import ConvSweep.Tree.Slot
import ConvSweep.Print.Context

/-!
# The pieces of a node

Every node is printed as a row of pieces: fixed text, line breaks, and nodes below it, each with
the context of the slot it is printed into. `Node.pieces` is the grammar of the printed form; the
printers only differ in which written parentheses they show.
-/

namespace ConvSweep

inductive Piece
  | text (s : String)
  /-- A line break, indented by so many levels more than the node. -/
  | line (deeper : Nat)
  /-- A node below, indented by so many levels more than the node. -/
  | sub (deeper : Nat) (ctx : Ctx) (node : AnyNode)

namespace Piece

variable {c : Category}

/-- A node printed at the same depth. -/
def child (ctx : Ctx) (n : Node c) : Piece := .sub 0 ctx ⟨n⟩

/-- The parts one after the other, with `sep` between them. -/
def separated (sep : String) : List (List Piece) → List Piece
  | [] => []
  | [part] => part
  | part :: parts => part ++ .text sep :: separated sep parts

/-- A list of expressions; each stands in a slot of its own. -/
def exprs (ctx : Ctx) (es : List (Node .expr)) : List Piece :=
  separated ", " (es.map fun e => [child (ctx.prec 0) e])

/-- Each node on a line of its own. -/
def lines (deeper : Nat) (ns : List (Node c)) : List Piece :=
  ns.flatMap fun n => [.line deeper, .sub deeper .plain ⟨n⟩]

def names (ids : List Ident) : String :=
  ", ".intercalate (ids.map (·.name))

def fields (sep : String) (fs : List (Node .field)) : List Piece :=
  separated sep (fs.map fun f => [child .plain f])

/-- Parameters in parentheses, then the results: none, a single unnamed one bare, or a list. -/
def paramsAndResults (params results : List (Node .field)) : List Piece :=
  [.text "("] ++ fields ", " params ++ [.text ")"] ++
    match results with
    | [] => []
    | [.field id [] type] => [.text " ", child .plain (.field id [] type)]
    | results => [.text " ("] ++ fields ", " results ++ [.text ")"]

/-- A method is printed as its name and signature; what is embedded, as a field. -/
def method : Node .field → List Piece
  | .field _ (name :: _) (.funcType _ params results) =>
    .text name.name :: paramsAndResults params results
  | f => [child .plain f]

/-- The methods of an interface. -/
def methods (fs : List (Node .field)) : List Piece := separated "; " (fs.map method)

/-- The declarations of a file, each after an empty line. -/
def topLevel (decls : List (Node (.decl .top))) : List Piece :=
  decls.flatMap fun d => [.text "\n", child .plain d, .text "\n"]

/-- A statement of a header, followed by a semicolon. -/
def headerInit (init : Option (Node .stmt)) : List Piece :=
  match init with
  | some s => [child .header s, .text "; "]
  | none => []

/-- A piece that may be left out. -/
def optional (ctx : Ctx) (n : Option (Node c)) : List Piece :=
  match n with
  | some n => [child ctx n]
  | none => []

end Piece

namespace Node

open Piece

variable {c : Category}

/-- The pieces of a node in a slot with the context `ctx`. Written parentheses appear where
`showsParens` says so of the slot and the expression inside them. -/
def pieces (showsParens : Ctx → Node .expr → Bool) (ctx : Ctx) : Node c → List Piece
  | .file _ package decls =>
    .text s!"package {package.name}\n" :: topLevel decls
  | .gen _ keyword specs grouped =>
    .text (keyword.spelling ++ " ") ::
      if grouped then [.text "("] ++ lines 1 specs ++ [.line 0, .text ")"]
      else
        match specs with
        | spec :: _ => [child .plain spec]
        | [] => []
  | .func _ recv name type body =>
    [.text "func "] ++
      (match recv with
        | some f => [.text "(", child .plain f, .text ") "]
        | none => []) ++
      [.text name.name, child .plain type] ++
      (match body with
        | some b => [.text " ", child .plain b]
        | none => [])
  | .importSpec _ name path =>
    [.text ((match name with | some n => n.name ++ " " | none => "") ++ path.text)]
  | .valueSpec _ ids type values =>
    [.text (names ids)] ++
      (match type with
        | some t => [.text " ", child .plain t]
        | none => []) ++
      if values.isEmpty then [] else .text " = " :: exprs .plain values
  | .typeSpec _ name isAlias type =>
    [.text (name.name ++ if isAlias then " = " else " "), child .plain type]
  | .field _ ids type =>
    [.text (if ids.isEmpty then "" else names ids ++ " "), child .plain type]
  | .signature _ params results => paramsAndResults params results
  | .block _ stmts | .blockStmt _ stmts =>
    [.text "\x7b"] ++ lines 1 stmts ++ [.line 0, .text "\x7d"]
  | .caseClause _ list body =>
    (if list.isEmpty then [.text "default:"]
      else [.text "case "] ++ exprs .plain list ++ [.text ":"]) ++ lines 1 body
  | .commClause _ comm body =>
    (match comm with
      | some s => [.text "case ", child .plain s, .text ":"]
      | none => [.text "default:"]) ++ lines 1 body
  | .exprStmt _ x => [child ctx x]
  | .assign _ lhs op rhs => exprs ctx lhs ++ [.text s!" {op.spelling} "] ++ exprs ctx rhs
  | .incDec _ x inc => [child ctx x, .text (if inc then "++" else "--")]
  | .returnStmt _ results =>
    .text "return" :: if results.isEmpty then [] else .text " " :: exprs ctx results
  | .ifStmt _ init cond body els =>
    [.text "if "] ++ headerInit init ++ [child .header cond, .text " ", child .plain body] ++
      match els with
      | some s => [.text " else ", child .plain s]
      | none => []
  | .forStmt _ init cond post body =>
    [.text "for "] ++
      (if init.isSome || post.isSome then
        optional .header init ++ [.text "; "] ++ optional .header cond ++ [.text "; "] ++
          optional .header post ++ [.text " "]
      else
        match cond with
        | some e => [child .header e, .text " "]
        | none => []) ++
      [child .plain body]
  | .rangeStmt _ key value define x body =>
    [.text "for "] ++
      (match key with
        | some k =>
          [child .header k] ++
            (match value with
              | some v => [.text ", ", child .header v]
              | none => []) ++
            [.text (if define then " := " else " = ")]
        | none => []) ++
      [.text "range ", child .header x, .text " ", child .plain body]
  | .switchStmt _ init tag clauses =>
    [.text "switch "] ++ headerInit init ++
      (match tag with
        | some e => [child .header e, .text " "]
        | none => []) ++
      [.text "\x7b"] ++ lines 0 clauses ++ [.line 0, .text "\x7d"]
  | .typeSwitch _ init guard clauses =>
    [.text "switch "] ++ headerInit init ++ [child .header guard, .text " ", .text "\x7b"] ++
      lines 0 clauses ++ [.line 0, .text "\x7d"]
  | .selectStmt _ clauses =>
    [.text "select \x7b"] ++ lines 0 clauses ++ [.line 0, .text "\x7d"]
  | .goStmt _ x => [.text "go ", child ctx x]
  | .deferStmt _ x => [.text "defer ", child ctx x]
  | .send _ chan value => [child ctx chan, .text " <- ", child ctx value]
  | .labeled _ label stmt => [.text (label.name ++ ":"), .line 0, child .plain stmt]
  | .branch _ kind label =>
    [.text (kind.spelling ++ match label with | some l => " " ++ l.name | none => "")]
  | .declStmt _ decl => [child .plain decl]
  | .ident _ name => [.text name]
  | .basicLit _ _ written => [.text written]
  | .composite _ type elts =>
    optional (ctx.prec primaryPrec) type ++ [.text "\x7b"] ++ exprs .plain elts ++ [.text "\x7d"]
  | .funcLit _ type body => [.text "func", child .plain type, .text " ", child .plain body]
  | .paren _ x =>
    if showsParens ctx x then [.text "(", child .plain x, .text ")"] else [child ctx x]
  | .selector _ x sel => [child (ctx.prec primaryPrec) x, .text ("." ++ sel.name)]
  | .index _ x i => [child (ctx.prec primaryPrec) x, .text "[", child .plain i, .text "]"]
  | .slice _ x low high max =>
    [child (ctx.prec primaryPrec) x, .text "["] ++ optional .plain low ++ [.text ":"] ++
      optional .plain high ++
      (match max with
        | some m => [.text ":", child .plain m]
        | none => []) ++
      [.text "]"]
  | .typeAssert _ x type =>
    [child (ctx.prec primaryPrec) x, .text ".("] ++
      (match type with
        | some t => [child .plain t]
        | none => [.text "type"]) ++
      [.text ")"]
  | .call _ callee args spread =>
    [child (ctx.prec primaryPrec) callee, .text "("] ++ exprs .plain args ++
      [.text (if spread then "...)" else ")")]
  | .star _ x => [.text "*", child (ctx.operand unaryPrec "*") x]
  | .unary _ op x => [.text op.spelling, child (ctx.operand unaryPrec op.spelling) x]
  | .binary _ x op y =>
    [child (ctx.prec op.precedence) x, .text s!" {op.spelling} ",
      child (ctx.operand (op.precedence + 1) op.spelling) y]
  | .keyValue _ key value => [child (ctx.prec 0) key, .text ": ", child (ctx.prec 0) value]
  | .arrayType _ len elem => [.text "["] ++ optional .plain len ++ [.text "]", child .plain elem]
  | .structType _ fs =>
    [.text "struct\x7b"] ++
      (if fs.isEmpty then [] else [.text " "] ++ fields "; " fs ++ [.text " "]) ++
      [.text "\x7d"]
  | .funcType _ params results => .text "func" :: paramsAndResults params results
  | .interfaceType _ fs =>
    [.text "interface\x7b"] ++
      (if fs.isEmpty then [] else [.text " "] ++ methods fs ++ [.text " "]) ++
      [.text "\x7d"]
  | .mapType _ key value => [.text "map[", child .plain key, .text "]", child .plain value]
  | .chanType _ dir value =>
    [.text dir.spelling, child (if dir = .both then Ctx.plain.operand 0 "chan" else .plain) value]
  | .ellipsis _ elt => .text "..." :: optional .plain elt

end Node

end ConvSweep
