import ConvSweep.Edit
import ConvSweep.Text.Bytes

/-!
# Deleting edits from a text

The edits are sorted, checked, and their bytes left out. What remains has to be UTF-8.
-/

namespace ConvSweep

inductive DeletionError
  /-- The second edit starts inside the first. -/
  | overlapping (first second : Edit)
  | outOfBounds (edit : Edit) (length : Nat)
  /-- The range is empty or reversed. -/
  | emptyRange (edit : Edit)
  /-- What remains is no text. -/
  | invalidText
  deriving DecidableEq, Repr

def DeletionError.message : DeletionError → String
  | overlapping a b => s!"Overlapping edits {a.toString} and {b.toString}"
  | outOfBounds e n => s!"Edit {e.toString} out of bounds: source length {n}"
  | emptyRange e => s!"Edit {e.toString} is empty"
  | invalidText => "Result is not valid UTF-8"

namespace Deletion

/-- What is wrong with one edit of a text of `length` bytes. -/
def fault (length : Nat) (e : Edit) : Option DeletionError :=
  if e.stop ≤ e.start then some (.emptyRange e)
  else if length < e.stop then some (.outOfBounds e length)
  else none

/-- The first two neighbours of which the second starts inside the first. -/
def firstOverlap : List Edit → Option DeletionError
  | a :: b :: es => if b.start < a.stop then some (.overlapping a b) else firstOverlap (b :: es)
  | _ => none

/-- The edits in order, if they can be deleted from a text of `length` bytes. Once they are in
order, neighbours tell whether any two overlap. -/
def validate (length : Nat) (edits : List Edit) : Except DeletionError (List Edit) :=
  let sorted := edits.mergeSort Edit.le
  match (sorted.findSome? (fault length)).or (firstOverlap sorted) with
  | some e => .error e
  | none => .ok sorted

/-- The bytes from `cursor` on that lie in none of the edits, which are in order. -/
def keep (bytes : List UInt8) (cursor : Nat) : List Edit → List UInt8
  | [] => bytes.drop cursor
  | e :: es => (bytes.take e.start).drop cursor ++ keep bytes e.stop es

/-- The source without the edits. -/
def apply (source : String) (edits : List Edit) : Except DeletionError String := do
  let bytes := Text.bytes source
  let sorted ← validate bytes.length edits
  match Text.ofBytes? (keep bytes 0 sorted) with
  | some text => return text
  | none => throw .invalidText

end Deletion

end ConvSweep
