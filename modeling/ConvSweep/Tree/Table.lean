import ConvSweep.Tree.Node

/-!
# Tables over the nodes of a file

A table is a list of entries, the newest first, so an id that was entered twice keeps the entry
that came last.
-/

namespace ConvSweep

/-- What is known of the nodes of a file, by their ids. -/
structure Table (α : Type) where
  entries : List (NodeId × α)
  deriving Repr

namespace Table

variable {α : Type}

def empty : Table α := ⟨[]⟩

def insert (t : Table α) (id : NodeId) (a : α) : Table α := ⟨(id, a) :: t.entries⟩

def erase (t : Table α) (id : NodeId) : Table α := ⟨t.entries.filter (·.1 != id)⟩

def get? (t : Table α) (id : NodeId) : Option α := t.entries.lookup id

/-- Enters a list of pairs one after the other. -/
def ofList (entries : List (NodeId × α)) : Table α := ⟨entries.reverse⟩

/-- The ids that have an entry, in increasing order and without repetition. -/
def ids (t : Table α) : List NodeId :=
  (t.entries.map (·.1)).eraseDups.mergeSort

end Table

end ConvSweep
