/-!
# TOML values and tables

A document is a tree of tables. How a table came about decides what may still be added to it: a
table that a header only passed through may get a header of its own, a table made by dotted keys
may only grow by dotted keys, and an inline table is finished once it is written.
-/

namespace ConvSweep.Toml

/-- How a table came about. -/
inductive Origin
  /-- It has a header of its own, or is the whole document. -/
  | header
  /-- A header of a table below it passed through it. -/
  | passed
  /-- Dotted keys made it. -/
  | dotted
  /-- It is written in braces. -/
  | inline
  deriving DecidableEq, Repr

inductive Value
  | string (s : String)
  /-- An integer, or what stands for one without being a number, which does no harm until somebody
  looks at it. -/
  | integer (n : Option Int)
  /-- A floating-point number; all that matters is whether it is too large. -/
  | float (overflows : Bool)
  | bool (b : Bool)
  | datetime
  /-- An array; `ofTables` if its items are tables with headers of their own. -/
  | array (items : List Value) (ofTables : Bool)
  | table (origin : Origin) (entries : List (String × Value))

/-- The entries of a table. -/
abbrev Entries := List (String × Value)

namespace Entries

def get? (es : Entries) (key : String) : Option Value := es.lookup key

/-- Enters a value, in place of the one that was there or after all others. -/
def set (key : String) (v : Value) : Entries → Entries
  | [] => [(key, v)]
  | (k, w) :: es => if k = key then (k, v) :: es else (k, w) :: set key v es

/-- Changes the last element of a list. -/
def changeLast {α : Type} (f : α → Option α) : List α → Option (List α)
  | [] => none
  | [a] => do return [← f a]
  | a :: as => do return a :: (← changeLast f as)

/-- Changes the table at the end of a path of keys, making the tables on the way if needed. `made`
is how those come about. Dotted keys do not enter a table that has a header. -/
def change (made : Origin) (f : Origin → Entries → Option (Origin × Entries)) :
    List String → Origin → Entries → Option (Origin × Entries)
  | [], origin, es => f origin es
  | key :: path, origin, es => do
    let below (o : Origin) (inner : Entries) : Option Value := do
      let (o, inner) ← change made f path o inner
      return .table o inner
    let v ←
      match get? es key with
      | none => below made []
      | some (.table o inner) =>
        if o = .inline || (made = .dotted && o = .header) then none else below o inner
      | some (.array items true) =>
        let items := changeLast (fun
          | .table o inner => below o inner
          | _ => none) items
        items.map (.array · true)
      | some _ => none
    return (origin, set key v es)

/-- Enters a value under a dotted key. The table that holds it is the one at hand, or one made by
dotted keys. -/
def assign (path : List String) (key : String) (v : Value) (origin : Origin) (es : Entries) :
    Option (Origin × Entries) :=
  change .dotted (fun o inner =>
    if (o = .dotted) = path.isEmpty then none
    else if (get? inner key).isSome then none
    else some (o, set key v inner)) path origin es

/-- Gives a table its header. -/
def openTable (path : List String) (key : String) (es : Entries) : Option Entries := do
  let (_, es) ← change .passed (fun o inner =>
    match get? inner key with
    | none => some (o, set key (.table .header []) inner)
    | some (.table .passed deeper) => some (o, set key (.table .header deeper) inner)
    | some _ => none) path .header es
  return es

/-- Adds a table to an array of tables. -/
def openItem (path : List String) (key : String) (es : Entries) : Option Entries := do
  let (_, es) ← change .passed (fun o inner =>
    match get? inner key with
    | none => some (o, set key (.array [.table .header []] true) inner)
    | some (.array items true) =>
      some (o, set key (.array (items ++ [.table .header []]) true) inner)
    | some _ => none) path .header es
  return es

end Entries

end ConvSweep.Toml
