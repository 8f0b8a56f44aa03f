import ConvSweep.Text.Quoted
import ConvSweep.Types.Basic

/-! # Types as text -/

namespace ConvSweep

mutual

/-- The spelling of a type in messages. -/
def GoType.display : GoType → String
  | .basic kind => kind.spelling
  | .named type =>
    match type.pkg with
    | some pkg => pkg ++ "." ++ type.name
    | none => type.name
  | .pointer elem => "*" ++ elem.display
  | .slice elem => "[]" ++ elem.display
  | .array len elem => s!"[{len}]" ++ elem.display
  | .map key value => "map[" ++ key.display ++ "]" ++ value.display
  | .chan dir elem => dir.spelling ++ elem.display
  | .struct fields => "struct\x7b" ++ "; ".intercalate (FieldType.displayAll fields) ++ "\x7d"
  | .func sig => "func" ++ sig.display
  | .interface methods =>
    "interface\x7b" ++ "; ".intercalate (Method.displayAll methods) ++ "\x7d"

def GoType.displayAll : List GoType → List String
  | [] => []
  | a :: as => a.display :: GoType.displayAll as

def FieldType.displayAll : List FieldType → List String
  | [] => []
  | ⟨name, type, embedded, tag⟩ :: fs =>
    ((if embedded then "" else name ++ " ") ++ type.display ++
      match tag with
      | some t => " " ++ quoted t
      | none => "") :: FieldType.displayAll fs

def FuncSig.display : FuncSig → String
  | ⟨params, results, variadic⟩ =>
    "(" ++ ", ".intercalate (markLast variadic (GoType.displayAll params)) ++ ")" ++
      match GoType.displayAll results with
      | [] => ""
      | [one] => " " ++ one
      | many => " (" ++ ", ".intercalate many ++ ")"
where
  /-- Writes `...` before the last parameter of a variadic function. -/
  markLast (variadic : Bool) : List String → List String
    | [] => []
    | [last] => [if variadic then "..." ++ last else last]
    | p :: ps => p :: markLast variadic ps

def Method.displayAll : List Method → List String
  | [] => []
  | ⟨name, sig⟩ :: ms => (name ++ sig.display) :: Method.displayAll ms

end

end ConvSweep
