import Mathlib.Data.List.Nodup
import Mathlib.Data.List.Flatten
import ConvSweep.Tree.Walk

/-! # The nodes of a tree

What the walk visits, seen as a list of nodes, and what distinct ids say about it.
-/

namespace ConvSweep.AnyNode

/-- The node and every node below it, parents before children. -/
def nodes (n : AnyNode) : List AnyNode := (n.visits []).map (·.node)

def ids (n : AnyNode) : List NodeId := n.nodes.map (·.id)

/-- No two nodes have the same id. -/
def DistinctIds (n : AnyNode) : Prop := n.ids.Nodup

instance (n : AnyNode) : Decidable n.DistinctIds := inferInstanceAs (Decidable n.ids.Nodup)

/-! ## Nodes and children -/

theorem map_node_visits (n : AnyNode) (ancestors : List AnyNode) :
    (n.visits ancestors).map (·.node) = n.nodes := by
  -- The ancestors only ride along: children see other ones on both sides.
  have h : ∀ as bs, (n.visits as).map (·.node) = (n.visits bs).map (·.node) := by
    induction n using AnyNode.induct with
    | step n ih =>
      intro as bs
      simp only [visits_eq n, List.map_cons, List.map_flatMap]
      congr 1
      exact List.flatMap_congr fun m hm => ih m hm _ _
  exact h ancestors []

theorem nodes_eq (n : AnyNode) : n.nodes = n :: n.children.flatMap nodes := by
  rw [nodes, visits_eq, List.map_cons, List.map_flatMap]
  simp only [map_node_visits]

theorem ids_eq (n : AnyNode) : n.ids = n.id :: n.children.flatMap ids := by
  simp only [ids, nodes_eq n, List.map_cons, List.map_flatMap]
  rfl

theorem self_mem_nodes (n : AnyNode) : n ∈ n.nodes := by
  rw [nodes_eq]
  exact List.mem_cons_self

theorem mem_nodes_iff {n x : AnyNode} :
    x ∈ n.nodes ↔ x = n ∨ ∃ m ∈ n.children, x ∈ m.nodes := by
  rw [nodes_eq, List.mem_cons, List.mem_flatMap]

theorem mem_nodes_of_child {n m x : AnyNode} (hm : m ∈ n.children) (hx : x ∈ m.nodes) :
    x ∈ n.nodes := mem_nodes_iff.mpr (Or.inr ⟨m, hm, hx⟩)

theorem child_mem_nodes {n m : AnyNode} (hm : m ∈ n.children) : m ∈ n.nodes :=
  mem_nodes_of_child hm m.self_mem_nodes

/-- The node that a path of places among the children leads to. -/
def below? : AnyNode → List Nat → Option AnyNode
  | n, [] => some n
  | n, i :: path => n.children[i]?.bind (below? · path)

theorem mem_nodes_of_below? {n x : AnyNode} (path : List Nat) (h : n.below? path = some x) :
    x ∈ n.nodes := by
  induction path generalizing n with
  | nil =>
    cases h
    exact x.self_mem_nodes
  | cons i path ih =>
    obtain ⟨m, hm, hx⟩ := Option.bind_eq_some_iff.mp h
    exact mem_nodes_of_child (List.mem_of_getElem? hm) (ih hx)

theorem mem_nodes_trans {n x y : AnyNode} (hx : x ∈ n.nodes) (hy : y ∈ x.nodes) :
    y ∈ n.nodes := by
  induction n using AnyNode.induct with
  | step n ih =>
    rcases mem_nodes_iff.mp hx with rfl | ⟨m, hm, hx⟩
    · exact hy
    · exact mem_nodes_of_child hm (ih m hm hx)

theorem id_mem_ids {n x : AnyNode} (hx : x ∈ n.nodes) : x.id ∈ n.ids := List.mem_map_of_mem hx

theorem mem_ids_iff {n : AnyNode} {id : NodeId} : id ∈ n.ids ↔ ∃ x ∈ n.nodes, x.id = id :=
  List.mem_map

theorem sizeOf_le_of_mem_nodes {n x : AnyNode} (hx : x ∈ n.nodes) :
    x = n ∨ sizeOf x.node < sizeOf n.node := by
  induction n using AnyNode.induct with
  | step n ih =>
    rcases mem_nodes_iff.mp hx with rfl | ⟨m, hm, hx⟩
    · exact Or.inl rfl
    · have hlt := sizeOf_lt_of_mem_children hm
      rcases ih m hm hx with rfl | h
      · exact Or.inr hlt
      · exact Or.inr (Nat.lt_trans h hlt)

theorem nodes_antisymm {x y : AnyNode} (hxy : x ∈ y.nodes) (hyx : y ∈ x.nodes) : x = y := by
  rcases sizeOf_le_of_mem_nodes hxy with h | h
  · exact h
  · rcases sizeOf_le_of_mem_nodes hyx with h' | h'
    · exact h'.symm
    · omega

theorem not_mem_nodes_child {n m : AnyNode} (hm : m ∈ n.children) : n ∉ m.nodes := by
  intro h
  have hlt := sizeOf_lt_of_mem_children hm
  rcases sizeOf_le_of_mem_nodes h with rfl | h
  · omega
  · omega

theorem nested_or_apart {n x y : AnyNode} (hx : x ∈ n.nodes) (hy : y ∈ n.nodes) :
    x ∈ y.nodes ∨ y ∈ x.nodes ∨
      ∃ p ∈ n.nodes, ∃ a ∈ p.children, ∃ b ∈ p.children, a ≠ b ∧ x ∈ a.nodes ∧ y ∈ b.nodes := by
  induction n using AnyNode.induct with
  | step n ih =>
    rcases mem_nodes_iff.mp hx with rfl | ⟨a, ha, hxa⟩
    · exact Or.inr (Or.inl hy)
    rcases mem_nodes_iff.mp hy with rfl | ⟨b, hb, hyb⟩
    · exact Or.inl hx
    by_cases hab : a = b
    · subst hab
      rcases ih a ha hxa hyb with h | h | ⟨p, hp, h⟩
      · exact Or.inl h
      · exact Or.inr (Or.inl h)
      · exact Or.inr (Or.inr ⟨p, mem_nodes_of_child ha hp, h⟩)
    · exact Or.inr (Or.inr ⟨n, n.self_mem_nodes, a, ha, b, hb, hab, hxa, hyb⟩)

/-! ## Distinct ids -/

theorem eq_of_nodup_flatMap {α β : Type} {f : α → List β} {l : List α} (h : (l.flatMap f).Nodup)
    {a b : α} {x : β} (ha : a ∈ l) (hb : b ∈ l) (hxa : x ∈ f a) (hxb : x ∈ f b) : a = b := by
  induction l with
  | nil => simp at ha
  | cons c l ih =>
    rw [List.flatMap_cons] at h
    have hdis := List.disjoint_of_nodup_append h
    rcases List.mem_cons.mp ha with rfl | hal
    · rcases List.mem_cons.mp hb with rfl | hbl
      · rfl
      · exact (hdis hxa (List.mem_flatMap.mpr ⟨b, hbl, hxb⟩)).elim
    · rcases List.mem_cons.mp hb with rfl | hbl
      · exact (hdis hxb (List.mem_flatMap.mpr ⟨a, hal, hxa⟩)).elim
      · exact ih (List.nodup_append.mp h).2.1 hal hbl

theorem DistinctIds.child {n m : AnyNode} (h : n.DistinctIds) (hm : m ∈ n.children) :
    m.DistinctIds := by
  rw [DistinctIds, ids_eq] at h
  exact (List.nodup_flatMap.mp (List.nodup_cons.mp h).2).1 m hm

theorem DistinctIds.of_mem {n x : AnyNode} (h : n.DistinctIds) (hx : x ∈ n.nodes) :
    x.DistinctIds := by
  induction n using AnyNode.induct with
  | step n ih =>
    rcases mem_nodes_iff.mp hx with rfl | ⟨m, hm, hx⟩
    · exact h
    · exact ih m hm (h.child hm) hx

theorem DistinctIds.eq_of_id {n x y : AnyNode} (h : n.DistinctIds) (hx : x ∈ n.nodes)
    (hy : y ∈ n.nodes) (hid : x.id = y.id) : x = y := List.inj_on_of_nodup_map h hx hy hid

theorem DistinctIds.mem_of_id {n m x : AnyNode} (h : n.DistinctIds) (hm : m ∈ n.nodes)
    (hx : x ∈ n.nodes) (hid : x.id ∈ m.ids) : x ∈ m.nodes := by
  obtain ⟨y, hy, hyx⟩ := mem_ids_iff.mp hid
  rwa [← h.eq_of_id (mem_nodes_trans hm hy) hx hyx]

theorem DistinctIds.children_eq {n a b x : AnyNode} (h : n.DistinctIds) (ha : a ∈ n.children)
    (hb : b ∈ n.children) (hxa : x ∈ a.nodes) (hxb : x ∈ b.nodes) : a = b := by
  rw [DistinctIds, ids_eq] at h
  exact eq_of_nodup_flatMap (List.nodup_cons.mp h).2 ha hb (id_mem_ids hxa) (id_mem_ids hxb)

theorem DistinctIds.mem_child {n m d x : AnyNode} (h : n.DistinctIds) (hm : m ∈ n.children)
    (hd : d ∈ n.nodes) (hne : d ≠ n) (hxm : x ∈ m.nodes) (hxd : x ∈ d.nodes) : d ∈ m.nodes := by
  obtain ⟨c, hc, hdc⟩ := (mem_nodes_iff.mp hd).resolve_left hne
  rwa [h.children_eq hm hc hxm (mem_nodes_trans hdc hxd)]

theorem DistinctIds.nodup_children {n : AnyNode} (h : n.DistinctIds) : n.children.Nodup := by
  rw [DistinctIds, ids_eq] at h
  refine (List.nodup_flatMap.mp (List.nodup_cons.mp h).2).2.imp ?_
  rintro a b hdis rfl
  exact hdis (id_mem_ids a.self_mem_nodes) (id_mem_ids a.self_mem_nodes)

/-! ## Visits -/

theorem mem_nodes_of_visit {n : AnyNode} {as : List AnyNode} {v : Visit} (hv : v ∈ n.visits as) :
    v.node ∈ n.nodes := by
  rw [← map_node_visits n as]
  exact List.mem_map_of_mem hv

theorem exists_visit {n x : AnyNode} (as : List AnyNode) (hx : x ∈ n.nodes) :
    ∃ bs, ⟨x, bs⟩ ∈ n.visits as := by
  rw [← map_node_visits n as] at hx
  obtain ⟨⟨_, bs⟩, hv, rfl⟩ := List.mem_map.mp hx
  exact ⟨bs, hv⟩

theorem mem_visits_of_child {n m : AnyNode} {as : List AnyNode} {v : Visit} (hm : m ∈ n.children)
    (hv : v ∈ m.visits (n :: as)) : v ∈ n.visits as := by
  rw [visits_eq]
  exact List.mem_cons_of_mem _ (List.mem_flatMap.mpr ⟨m, hm, hv⟩)

theorem mem_visits_trans {n m : AnyNode} {as bs : List AnyNode} {v : Visit}
    (hm : ⟨m, bs⟩ ∈ n.visits as) (hv : v ∈ m.visits bs) : v ∈ n.visits as := by
  induction n using AnyNode.induct generalizing as with
  | step n ih =>
    rw [visits_eq, List.mem_cons, List.mem_flatMap] at hm
    rcases hm with hm | ⟨c, hc, hm⟩
    · cases hm
      exact hv
    · exact mem_visits_of_child hc (ih c hc hm)

theorem mem_nodes_of_ancestor {n x a : AnyNode} {as bs : List AnyNode}
    (hv : ⟨x, bs⟩ ∈ n.visits as) (ha : a ∈ bs) : a ∈ as ∨ a ∈ n.nodes := by
  induction n using AnyNode.induct generalizing as with
  | step n ih =>
    rw [visits_eq, List.mem_cons, List.mem_flatMap] at hv
    rcases hv with hv | ⟨m, hm, hv⟩
    · cases hv
      exact Or.inl ha
    · rcases ih m hm hv with h | h
      · rcases List.mem_cons.mp h with rfl | h
        · exact Or.inr a.self_mem_nodes
        · exact Or.inl h
      · exact Or.inr (mem_nodes_of_child hm h)

theorem visit_cases {n x : AnyNode} {as bs : List AnyNode} (hv : ⟨x, bs⟩ ∈ n.visits as) :
    (x = n ∧ bs = as) ∨
      ∃ p ps, bs = p :: ps ∧ ⟨p, ps⟩ ∈ n.visits as ∧ x ∈ p.children := by
  induction n using AnyNode.induct generalizing as with
  | step n ih =>
    rw [visits_eq, List.mem_cons, List.mem_flatMap] at hv
    rcases hv with hv | ⟨m, hm, hv⟩
    · simp only [Visit.mk.injEq] at hv
      exact Or.inl hv
    right
    rcases ih m hm hv with ⟨rfl, rfl⟩ | ⟨p, ps, rfl, hp, hx⟩
    · refine ⟨n, as, rfl, ?_, hm⟩
      rw [visits_eq]
      exact List.mem_cons_self
    · exact ⟨p, ps, rfl, mem_visits_of_child hm hp, hx⟩

theorem DistinctIds.visit_eq {n : AnyNode} {as : List AnyNode} {v w : Visit} (h : n.DistinctIds)
    (hv : v ∈ n.visits as) (hw : w ∈ n.visits as) (hid : v.node.id = w.node.id) : v = w := by
  refine List.inj_on_of_nodup_map (f := fun v : Visit => v.node.id) ?_ hv hw hid
  rw [DistinctIds, ids, ← map_node_visits n as, List.map_map] at h
  exact h

end ConvSweep.AnyNode
