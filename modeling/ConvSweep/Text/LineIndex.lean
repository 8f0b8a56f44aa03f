import ConvSweep.Text.Bytes

/-!
# Lines and columns

Where the lines of a text start, and on which line and in which column an offset falls. Lines and
columns are counted from 1, columns in bytes. Offsets are 64-bit numbers, and so are columns: a column
is computed by sums that wrap around.
-/

namespace ConvSweep

/-- The offsets where the lines of a text start. -/
structure LineIndex where
  starts : List Nat
  deriving Repr

namespace LineIndex

/-- The byte that ends a line. -/
def newline : UInt8 := 10

/-- The byte that may stand before the end of a line. -/
def carriageReturn : UInt8 := 13

/-- The offsets after the newlines of the bytes from `offset` on. -/
def startsAfter (offset : Nat) : List UInt8 → List Nat
  | [] => []
  | b :: bs =>
    if b = newline then (offset + 1) :: startsAfter (offset + 1) bs
    else startsAfter (offset + 1) bs

def ofText (source : String) : LineIndex := ⟨0 :: startsAfter 0 (Text.bytes source)⟩

/-- What a search in an increasing list finds. -/
inductive Lookup
  /-- The number, at this index. -/
  | found (i : Nat)
  /-- Not the number, which would have to stand at this index. -/
  | missing (i : Nat)
  deriving DecidableEq, Repr

/-- Looks for a number by halves, from the index `lo` up to `hi`. -/
def bisect (xs : List Nat) (x lo hi : Nat) (h : hi ≤ xs.length) : Lookup :=
  if hlt : lo < hi then
    let mid := (lo + hi) / 2
    have hmid : mid < xs.length := by omega
    if xs[mid] = x then .found mid
    else if xs[mid] < x then bisect xs x (mid + 1) hi h
    else bisect xs x lo mid (by omega)
  else .missing lo
termination_by hi - lo

/-- The line of an offset: the one that starts there, or else the last that starts before. -/
def line (index : LineIndex) (offset : Nat) : Nat :=
  match bisect index.starts offset 0 index.starts.length (Nat.le_refl _) with
  | .found i => i + 1
  | .missing i => i

/-- Where a line starts, if there is such a line. -/
def lineStart (index : LineIndex) (line : Nat) : Option Nat :=
  match line with
  | 0 => none
  | i + 1 => index.starts[i]?

/-- The column of an offset on the line that starts at `start`. The last of all offsets has column 0 on a
line that starts at 0. -/
def column (start offset : Nat) : Nat := (offset.toUInt64 - start.toUInt64 + 1).toNat

/-- The line and the column of an offset. -/
def lineCol (index : LineIndex) (offset : Nat) : Nat × Nat :=
  let line := index.line offset
  (line, column ((index.lineStart line).getD 0) offset)

/-- The text of a line without its end. -/
def lineText (index : LineIndex) (source : String) (line : Nat) : Option String := do
  let rest ← Text.drop? source (← index.lineStart line)
  let bytes := (Text.bytes rest).takeWhile (· ≠ newline)
  Text.ofBytes? (bytes.reverse.dropWhile (· = carriageReturn)).reverse

end LineIndex

end ConvSweep
