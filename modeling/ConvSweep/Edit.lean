/-!
# Edits

A half-open range of bytes to delete.
-/

namespace ConvSweep

structure Edit where
  start : Nat
  stop : Nat
  deriving DecidableEq, Repr

namespace Edit

/-- The number of bytes that are deleted; none for a reversed range. -/
def length (e : Edit) : Nat := e.stop - e.start

/-- Whether two ranges share a byte. Ranges that touch do not. -/
def overlaps (a b : Edit) : Bool := a.start < b.stop && b.start < a.stop

/-- By start, then by end. -/
def compare (a b : Edit) : Ordering :=
  (Ord.compare a.start b.start).then (Ord.compare a.stop b.stop)

def le (a b : Edit) : Bool := a.start < b.start || (a.start = b.start && a.stop ≤ b.stop)

def toString (e : Edit) : String := s!"[{e.start}, {e.stop})"

end Edit

end ConvSweep
