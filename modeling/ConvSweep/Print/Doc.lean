import ConvSweep.Tree.Node

/-!
# Printed text with its marks

A document is text in which the extents of nodes and the parentheses of calls are marked. Where a
document starts decides the offsets of its marks, so documents can be put together before any
offset is known. Offsets count bytes of the UTF-8 text.
-/

namespace ConvSweep

/-- A half-open range of bytes. -/
structure Span where
  start : Nat
  stop : Nat
  deriving DecidableEq, Repr

/-- The offsets of the two parentheses of a call. -/
structure ParenPair where
  lparen : Nat
  rparen : Nat
  deriving DecidableEq, Repr

inductive Doc
  | nil
  | text (s : String)
  | append (first second : Doc)
  /-- The extent of a node. -/
  | span (id : NodeId) (inside : Doc)
  /-- The argument list of a call, from its `(` to its `)`. -/
  | parens (call : NodeId) (inside : Doc)
  deriving Repr

namespace Doc

instance : Append Doc := ⟨Doc.append⟩

def join (ds : List Doc) : Doc := ds.foldr Doc.append .nil

def toString : Doc → String
  | nil => ""
  | text s => s
  | append a b => a.toString ++ b.toString
  | span _ d => d.toString
  | parens _ d => d.toString

/-- The number of bytes of the text. -/
def width : Doc → Nat
  | nil => 0
  | text s => s.utf8ByteSize
  | append a b => a.width + b.width
  | span _ d => d.width
  | parens _ d => d.width

/-- The extents of the marked nodes, each listed where it ends. -/
def spans (start : Nat) : Doc → List (NodeId × Span)
  | nil | text _ => []
  | append a b => a.spans start ++ b.spans (start + a.width)
  | span id d => d.spans start ++ [(id, ⟨start, start + d.width⟩)]
  | parens _ d => d.spans start

/-- The parentheses of the marked calls, each pair listed where it closes. -/
def parenPairs (start : Nat) : Doc → List (NodeId × ParenPair)
  | nil | text _ => []
  | append a b => a.parenPairs start ++ b.parenPairs (start + a.width)
  | span _ d => d.parenPairs start
  | parens id d => d.parenPairs start ++ [(id, ⟨start, start + d.width - 1⟩)]

theorem utf8ByteSize_toString (d : Doc) : d.toString.utf8ByteSize = d.width := by
  induction d with
  | nil => rfl
  | text s => rfl
  | append a b iha ihb => simp [toString, width, iha, ihb]
  | span _ _ ih => exact ih
  | parens _ _ ih => exact ih

end Doc

end ConvSweep
