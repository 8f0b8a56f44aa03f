import ConvSweep.Tree.Slot

/-!
# The pre-order walk

`AnyNode.walk` runs an action at every node, parents before children and siblings in slot order,
and hands it the chain of ancestors. `AnyNode.visits` lists the same visits without running
anything.
-/

namespace ConvSweep

/-- A node as the walk meets it, with its ancestors, the nearest first. -/
structure Visit where
  node : AnyNode
  ancestors : List AnyNode

namespace AnyNode

/-- Every visit below and including `n`, in pre-order. -/
def visits (n : AnyNode) (ancestors : List AnyNode) : List Visit :=
  ⟨n, ancestors⟩ :: n.children.attach.flatMap fun ⟨child, _⟩ => child.visits (n :: ancestors)
termination_by sizeOf n.node
decreasing_by exact sizeOf_lt_of_mem_children (by assumption)

/-- Runs `visit` at every node; an action that fails ends the walk. -/
def walk {μ : Type → Type} [Monad μ] (visit : Visit → μ Unit) (n : AnyNode)
    (ancestors : List AnyNode) : μ Unit := do
  visit ⟨n, ancestors⟩
  n.children.attach.forM fun ⟨child, _⟩ => child.walk visit (n :: ancestors)
termination_by sizeOf n.node
decreasing_by exact sizeOf_lt_of_mem_children (by assumption)

theorem visits_eq (n : AnyNode) (ancestors : List AnyNode) :
    n.visits ancestors =
      ⟨n, ancestors⟩ :: n.children.flatMap fun child => child.visits (n :: ancestors) := by
  rw [visits]
  simp [List.flatMap_def]

end AnyNode

end ConvSweep
