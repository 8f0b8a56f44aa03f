import ConvSweep.Edit
import ConvSweep.Print.Doc

/-!
# Removals

The deletions that take one conversion out of a file, and sets of them. A set is kept in the order
of the opening parentheses, which is also where diagnostics point.
-/

namespace ConvSweep

structure Removal where
  /-- The offset of the opening parenthesis of the conversion. -/
  lparen : Nat
  edits : List Edit
  deriving DecidableEq, Repr

namespace Removal

/-- Deletes the type and keeps the parentheses. What stands between the argument and the closing
parenthesis, such as a comma, goes too. -/
def keepParens (start lparen argStop rparen : Nat) : Removal :=
  ⟨lparen, ⟨start, lparen⟩ :: if argStop < rparen then [⟨argStop, rparen⟩] else []⟩

/-- Leaves only the argument. The sum is one of natural numbers: for a parenthesis at the last 64-bit
offset, which is past the end of any file, the sum of 64-bit numbers would overflow. -/
def stripParens (start lparen : Nat) (arg : Span) (rparen : Nat) : Removal :=
  ⟨lparen, [⟨start, arg.start⟩, ⟨arg.stop, rparen + 1⟩]⟩

/-- The numbers by which removals are ordered: the parenthesis, then the edits from the first. -/
def key (r : Removal) : List Nat := r.lparen :: r.edits.flatMap fun e => [e.start, e.stop]

end Removal

/-- A set of removals, in order. -/
structure RemovalSet where
  toList : List Removal
  sorted : toList.Pairwise fun a b => a.key < b.key

namespace RemovalSet

def empty : RemovalSet := ⟨[], .nil⟩

/-- Puts a removal at its place in an ordered list, unless it is there already. -/
def place (r : Removal) : List Removal → List Removal
  | [] => [r]
  | a :: as =>
    if r.key < a.key then r :: a :: as
    else if a.key < r.key then a :: place r as
    else a :: as

theorem eq_or_mem_of_mem_place {r x : Removal} {as : List Removal} (h : x ∈ place r as) :
    x = r ∨ x ∈ as := by
  induction as with
  | nil => simpa [place] using h
  | cons a as ih => grind [place]

theorem pairwise_place (r : Removal) {as : List Removal}
    (h : as.Pairwise fun a b => a.key < b.key) :
    (place r as).Pairwise fun a b => a.key < b.key := by
  induction as with
  | nil => simp [place]
  | cons a as ih =>
    obtain ⟨ha, has⟩ := List.pairwise_cons.1 h
    unfold place
    split
    · rename_i hra
      refine List.pairwise_cons.2 ⟨fun x hx => ?_, h⟩
      rcases List.mem_cons.1 hx with rfl | hx
      · exact hra
      · exact List.lt_trans hra (ha x hx)
    · split
      · rename_i har
        refine List.pairwise_cons.2 ⟨fun x hx => ?_, ih has⟩
        rcases eq_or_mem_of_mem_place hx with rfl | hx
        · exact har
        · exact ha x hx
      · exact h

def insert (s : RemovalSet) (r : Removal) : RemovalSet :=
  ⟨place r s.toList, pairwise_place r s.sorted⟩

def ofList (rs : List Removal) : RemovalSet := rs.foldl insert empty

def contains (s : RemovalSet) (r : Removal) : Bool := s.toList.contains r

def isEmpty (s : RemovalSet) : Bool := s.toList.isEmpty

def size (s : RemovalSet) : Nat := s.toList.length

/-- The removals of `s` that are also in `t`. -/
def inter (s t : RemovalSet) : RemovalSet := ⟨s.toList.filter t.contains, s.sorted.filter _⟩

/-- Every deleted range, removal by removal. -/
def edits (s : RemovalSet) : List Edit := s.toList.flatMap (·.edits)

instance : BEq RemovalSet := ⟨fun s t => s.toList == t.toList⟩

end RemovalSet

end ConvSweep
