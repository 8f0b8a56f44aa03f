import ConvSweep.Json.Number
import ConvSweep.Json.Reader

/-!
# Taking values out of a document

Values are taken in the order of the text, and the first thing that does not fit decides. A record
is written as an object or as an array of its fields in order; fields that nobody knows are
skipped.
-/

namespace ConvSweep.Json

inductive DecodeError
  | fault (f : Fault)
  /-- The text is JSON, but says something else. -/
  | wrongShape
  deriving DecidableEq, Repr

abbrev Decoded := Except DecodeError

def Ending.check : Ending → Decoded Unit
  | closed => .ok ()
  | cut f => .error (.fault f)

namespace Value

/-- The error of meeting a value where another kind is due. A plain value is read first. -/
def mismatch : Value → DecodeError
  | broken read _ => .fault read
  | string (.error f) => .fault f
  | number n => if n.overflows then .fault .malformed else .wrongShape
  | _ => .wrongShape

def toNat : Value → Decoded Nat
  | v@(number n) =>
    match n.toNat? with
    | some k => .ok k
    | none => .error v.mismatch
  | v => .error v.mismatch

def toBool : Value → Decoded Bool
  | bool b => .ok b
  | v => .error v.mismatch

def toText : Value → Decoded String
  | string (.ok s) => .ok s
  | v => .error v.mismatch

/-- The items of an array, each decoded by `f`. -/
def toList {α : Type} (f : Value → Decoded α) : Value → Decoded (List α)
  | array items ending => do
    let as ← items.mapM f
    ending.check
    return as
  | v => .error v.mismatch

/-- The members of an object in order, each value decoded by `f`. -/
def toMembers {α : Type} (f : Value → Decoded α) : Value → Decoded (List (String × α))
  | object members ending => do
    let as ← members.mapM fun (key, v) => do
      match key with
      | .error e => throw (.fault e)
      | .ok name => return (name, ← f v)
    ending.check
    return as
  | v => .error v.mismatch

mutual

/-- Passes over a value. -/
def skip : Value → Decoded Unit
  | broken _ skipped => .error (.fault skipped)
  | array items ending => do
    skipItems items
    ending.check
  | object members ending => do
    skipMembers members
    ending.check
  | _ => .ok ()

def skipItems : List Value → Decoded Unit
  | [] => .ok ()
  | v :: vs => do
    skip v
    skipItems vs

def skipMembers : List (Except Fault String × Value) → Decoded Unit
  | [] => .ok ()
  | (_, v) :: ms => do
    skip v
    skipMembers ms

end

end Value

/-! ## Records -/

/-- A field of a record that is built up in `σ`. -/
structure RecordField (σ : Type) where
  name : String
  isSet : σ → Bool
  set : Value → σ → Decoded σ
  /-- What a missing field does, unless it is an error. -/
  missing : Option (σ → σ)

namespace RecordField

variable {σ : Type}

/-- Settles a field that is not there. -/
def settle (f : RecordField σ) (s : σ) : Decoded σ :=
  if f.isSet s then .ok s
  else
    match f.missing with
    | some fill => .ok (fill s)
    | none => .error .wrongShape

end RecordField

namespace Value

variable {σ : Type}

/-- Reads the members of a record. -/
def readMembers (fields : List (RecordField σ)) :
    List (Except Fault String × Value) → σ → Decoded σ
  | [], s => .ok s
  | (.error e, _) :: _, _ => .error (.fault e)
  | (.ok name, v) :: ms, s =>
    match fields.find? (·.name = name) with
    | none => do
      v.skip
      readMembers fields ms s
    | some f => do
      if f.isSet s then throw .wrongShape
      let s ← f.set v s
      readMembers fields ms s

/-- Reads the fields of a record from the items of an array. More items than fields are more than
an array of them can hold. -/
def readItems (ending : Ending) : List (RecordField σ) → List Value → σ → Decoded σ
  | [], [], s => do
    ending.check
    return s
  | [], _ :: _, _ => .error (.fault .malformed)
  | f :: fs, v :: vs, s => do
    let s ← f.set v s
    readItems ending fs vs s
  | f :: fs, [], s => do
    ending.check
    let s ← f.settle s
    readItems ending fs [] s

/-- Reads a record, starting from `s`. -/
def toRecord (fields : List (RecordField σ)) (s : σ) : Value → Decoded σ
  | object members ending => do
    let s ← readMembers fields members s
    ending.check
    fields.foldlM (fun s f => f.settle s) s
  | array items ending => readItems ending fields items s
  | v => .error v.mismatch

end Value

/-- Decodes a document by `f`; nothing may follow the value. -/
def Document.decode {α : Type} (d : Document) (f : Value → Decoded α) : Decoded α := do
  let a ← f d.root
  if d.trailing then throw (.fault .malformed)
  return a

end ConvSweep.Json
