import ConvSweep.EditSet
import ConvSweep.Json.Decode
import ConvSweep.Json.Writer

/-!
# Edit sets as JSON

An edit set is written as an object `files` from paths to arrays of removals. Empty entries are
neither written nor kept when reading. A path that is written twice keeps what is written last.
-/

namespace ConvSweep

open Json

namespace Edit

def fields : List (RecordField (Option Nat × Option Nat)) :=
  [⟨"start", (·.1.isSome), fun v s => do return (some (← v.toNat), s.2), none⟩,
   ⟨"end", (·.2.isSome), fun v s => do return (s.1, some (← v.toNat)), none⟩]

def ofJson (v : Value) : Decoded Edit := do
  match ← v.toRecord fields (none, none) with
  | (some start, some stop) => return ⟨start, stop⟩
  | _ => throw .wrongShape

def toJson (depth : Nat) (e : Edit) : String :=
  Writer.object depth [("start", s!"{e.start}"), ("end", s!"{e.stop}")]

end Edit

namespace Removal

def fields : List (RecordField (Option Nat × Option (List Edit))) :=
  [⟨"lparen", (·.1.isSome), fun v s => do return (some (← v.toNat), s.2), none⟩,
   ⟨"edits", (·.2.isSome), fun v s => do return (s.1, some (← v.toList Edit.ofJson)), none⟩]

def ofJson (v : Value) : Decoded Removal := do
  match ← v.toRecord fields (none, none) with
  | (some lparen, some edits) => return ⟨lparen, edits⟩
  | _ => throw .wrongShape

def toJson (depth : Nat) (r : Removal) : String :=
  Writer.object depth
    [("lparen", s!"{r.lparen}"),
     ("edits", Writer.array (depth + 1) (r.edits.map (Edit.toJson (depth + 2))))]

end Removal

namespace EditSet

/-- Enters files one after the other. -/
def ofFiles (files : List (String × List Removal)) : EditSet :=
  files.foldl (fun set (path, rs) => set.put ⟨path⟩ (.ofList rs)) empty

def fields : List (RecordField (Option EditSet)) :=
  [⟨"files", (·.isSome), fun v _ => do
    return some (ofFiles (← v.toMembers (Value.toList Removal.ofJson))), none⟩]

def ofJson (v : Value) : Decoded EditSet := do
  match ← v.toRecord fields none with
  | some set => return set.compact
  | none => throw .wrongShape

/-- Reads an edit set. -/
def read (bytes : List UInt8) : Decoded EditSet := (Document.ofBytes bytes).decode ofJson

/-- The written form of an edit set. -/
def write (set : EditSet) : String :=
  Writer.object 0
    [("files", Writer.object 1 (set.files.map fun (path, s) =>
      (path.text, Writer.array 2 (s.toList.map (Removal.toJson 3)))))]

end EditSet

end ConvSweep
