import Mathlib
import ConvSweep.Proofs.Tree

/-! # The walk

The walk meets every node that can be reached through slots, each once and in pre-order, with the
nodes on the way as its ancestors, until the visitor fails. The slots of a node are distinct, so
that `AnyNode.slotOf` finds the one that holds a child.
-/

namespace ConvSweep

open AnyNode

/-! ## The slots of a node -/

namespace Slot

variable {c : Category} {name : String}

theorem nodup_many (nodes : List (Node c)) : ((many name nodes).map (·.1)).Nodup := by
  have h : (many name nodes).map (·.1) = (List.range nodes.length).map fun i => ⟨name, some i⟩ := by
    apply List.ext_getElem <;> simp [many]
  rw [h]
  exact List.nodup_range.map fun i j hij => by simpa using hij

theorem nodup_one (node : Node c) : ((one name node).map (·.1)).Nodup := List.nodup_singleton _

theorem nodup_opt (node : Option (Node c)) : ((opt name node).map (·.1)).Nodup := by
  cases node <;> simp [opt]

theorem name_of_mem_many {nodes : List (Node c)} {s : Slot}
    (h : s ∈ (many name nodes).map (·.1)) : s.name = name := by
  simp only [many, List.mem_map, List.mem_mapIdx] at h
  obtain ⟨_, ⟨i, hi, rfl⟩, rfl⟩ := h
  rfl

theorem name_of_mem_one {node : Node c} {s : Slot} (h : s ∈ (one name node).map (·.1)) :
    s.name = name := by
  rw [List.mem_singleton.mp h]

theorem name_of_mem_opt {node : Option (Node c)} {s : Slot}
    (h : s ∈ (opt name node).map (·.1)) : s.name = name := by
  cases node with
  | none => cases h
  | some n => rw [List.mem_singleton.mp h]

end Slot

namespace AnyNode

/-- The slots that hold a child, in order. -/
def childSlots (n : AnyNode) : List Slot := n.node.children.map (·.1)

theorem nodup_childSlots (n : AnyNode) : n.childSlots.Nodup := by
  obtain ⟨n⟩ := n
  unfold childSlots
  cases n
  all_goals simp only [Node.children, List.map_append, List.nodup_append, List.mem_append,
    Slot.nodup_many, Slot.nodup_one, Slot.nodup_opt, List.map_nil, List.nodup_nil]
  -- What is left: the parts of one node have different names.
  all_goals grind [→ Slot.name_of_mem_many, → Slot.name_of_mem_one, → Slot.name_of_mem_opt]

theorem slotOf_eq_some {n : AnyNode} (hids : (n.children.map (·.id)).Nodup) {s : Slot} {e : Expr}
    (h : (s, ⟨e⟩) ∈ n.node.children) : n.slotOf e.id = some s := by
  rw [AnyNode.children, List.map_map] at hids
  cases hslot : n.slotOf e.id with
  | none =>
    rw [slotOf, Option.map_eq_none_iff, List.find?_eq_none] at hslot
    exact (hslot _ h (by simp [isExpr, AnyNode.id])).elim
  | some t =>
    rw [slotOf, Option.map_eq_some_iff] at hslot
    obtain ⟨⟨_, m⟩, hfound, rfl⟩ := hslot
    have hm := List.mem_of_find?_eq_some hfound
    have hid := List.find?_some hfound
    simp only [Bool.and_eq_true, beq_iff_eq] at hid
    -- The child that was found has the id of `e`, and so it is `e`.
    cases List.inj_on_of_nodup_map hids hm h hid.2
    rfl

theorem slotOf_eq_none {n : AnyNode} {id : NodeId}
    (h : ∀ e : Expr, ⟨e⟩ ∈ n.children → e.id ≠ id) : n.slotOf id = none := by
  rw [slotOf, Option.map_eq_none_iff, List.find?_eq_none]
  rintro ⟨s, m⟩ hm
  simp only [Bool.and_eq_true, beq_iff_eq, not_and]
  intro hexpr
  obtain @⟨c, e⟩ := m
  obtain rfl : c = .expr := of_decide_eq_true hexpr
  exact h e (List.mem_map_of_mem hm)

end AnyNode

/-! ## Routes -/

/-- The visit of a node that is reached from `root` through slots, the last one first. Its ancestors
are the nodes to which these slots belong. -/
inductive Reaches (root : AnyNode) : List Slot → Visit → Prop
  | root : Reaches root [] ⟨root, []⟩
  | slot {route : List Slot} {n m : AnyNode} {ancestors : List AnyNode} {s : Slot}
      (hn : Reaches root route ⟨n, ancestors⟩) (hm : (s, m) ∈ n.node.children) :
      Reaches root (s :: route) ⟨m, n :: ancestors⟩

/-- In pre-order, a node comes before everything below it, and everything in one slot of a node
before everything in a later one. -/
inductive Precedes (root : AnyNode) (p q : List Slot) : Prop
  | below (hpq : p <:+ q) (hne : p ≠ q)
  | beside {route : List Slot} {n : AnyNode} {ancestors : List AnyNode} {s t : Slot}
      (hn : Reaches root route ⟨n, ancestors⟩) (hst : [s, t].Sublist n.childSlots)
      (hp : s :: route <:+ p) (hq : t :: route <:+ q)

theorem Precedes.ne {root : AnyNode} {p q : List Slot} (h : Precedes root p q) : p ≠ q := by
  cases h with
  | below _ hne => exact hne
  | @beside route n _ s t _ hst hp hq =>
    rintro rfl
    have hsuffix := List.suffix_of_suffix_length_le hp hq (Nat.le_refl _)
    cases hsuffix.eq_of_length rfl
    have hnodup := n.nodup_childSlots.sublist hst
    simp at hnodup

namespace AnyNode

/-- The visits from `n` on, each with the slots through which its node is reached. -/
def tour (n : AnyNode) (route : List Slot) (ancestors : List AnyNode) : List (List Slot × Visit) :=
  (route, ⟨n, ancestors⟩) :: n.node.children.attach.flatMap fun ⟨c, _⟩ =>
    c.2.tour (c.1 :: route) (n :: ancestors)
termination_by sizeOf n.node
decreasing_by exact Node.sizeOf_lt_of_mem_children (by assumption)

theorem tour_eq (n : AnyNode) (route : List Slot) (ancestors : List AnyNode) :
    n.tour route ancestors = (route, ⟨n, ancestors⟩) ::
      n.node.children.flatMap fun c => c.2.tour (c.1 :: route) (n :: ancestors) := by
  rw [tour]
  conv_rhs => rw [← List.attach_map_subtype_val n.node.children, List.flatMap_map]

theorem induct_slots {motive : AnyNode → Prop}
    (step : ∀ n : AnyNode, (∀ c ∈ n.node.children, motive c.2) → motive n) (n : AnyNode) :
    motive n := by
  induction n using AnyNode.induct with
  | step n ih => exact step n fun c hc => ih c.2 (List.mem_map_of_mem hc)

theorem map_snd_tour (n : AnyNode) (route : List Slot) (ancestors : List AnyNode) :
    (n.tour route ancestors).map (·.2) = n.visits ancestors := by
  induction n using AnyNode.induct_slots generalizing route ancestors with
  | step n ih =>
    rw [tour_eq, visits_eq, List.map_cons, List.map_flatMap, AnyNode.children, List.flatMap_map]
    congr 1
    exact List.flatMap_congr fun c hc => ih c hc _ _

variable {root n m : AnyNode} {route r : List Slot} {as bs : List AnyNode} {x : List Slot × Visit}

theorem self_mem_tour (n : AnyNode) (route : List Slot) (as : List AnyNode) :
    (route, ⟨n, as⟩) ∈ n.tour route as := by
  rw [tour_eq]
  exact List.mem_cons_self

theorem suffix_of_mem_tour (hx : x ∈ n.tour route as) : route <:+ x.1 := by
  induction n using AnyNode.induct_slots generalizing route as with
  | step n ih =>
    rw [tour_eq, List.mem_cons, List.mem_flatMap] at hx
    rcases hx with rfl | ⟨c, hc, hx⟩
    · exact List.suffix_refl _
    · exact (List.suffix_cons c.1 route).trans (ih c hc hx)

theorem mem_tour_trans (hm : (r, ⟨m, bs⟩) ∈ n.tour route as) (hx : x ∈ m.tour r bs) :
    x ∈ n.tour route as := by
  induction n using AnyNode.induct_slots generalizing route as with
  | step n ih =>
    rw [tour_eq, List.mem_cons, List.mem_flatMap] at hm
    rcases hm with hm | ⟨c, hc, hm⟩
    · cases hm
      exact hx
    · rw [tour_eq]
      exact List.mem_cons_of_mem _ (List.mem_flatMap.mpr ⟨c, hc, ih c hc hm⟩)

theorem reaches_of_mem_tour (hn : Reaches root route ⟨n, as⟩) (hx : x ∈ n.tour route as) :
    Reaches root x.1 x.2 := by
  induction n using AnyNode.induct_slots generalizing route as with
  | step n ih =>
    rw [tour_eq, List.mem_cons, List.mem_flatMap] at hx
    rcases hx with rfl | ⟨c, hc, hx⟩
    · exact hn
    · exact ih c hc (hn.slot hc) hx

theorem mem_tour_of_reaches {v : Visit} (h : Reaches root route v) :
    (route, v) ∈ root.tour [] [] := by
  induction h with
  | root => exact root.self_mem_tour [] []
  | @slot route n m ancestors s hn hm ih =>
    refine mem_tour_trans ih ?_
    rw [tour_eq]
    exact List.mem_cons_of_mem _ (List.mem_flatMap.mpr ⟨_, hm, m.self_mem_tour _ _⟩)

theorem pairwise_tour (hn : Reaches root route ⟨n, as⟩) :
    (n.tour route as).Pairwise fun x y => Precedes root x.1 y.1 := by
  induction n using AnyNode.induct_slots generalizing route as with
  | step n ih =>
    rw [tour_eq, List.pairwise_cons, List.pairwise_flatMap]
    refine ⟨fun y hy => ?below, fun c hc => ih c hc (hn.slot hc), ?beside⟩
    case below =>
      obtain ⟨c, hc, hy⟩ := List.mem_flatMap.mp hy
      have hsuffix := suffix_of_mem_tour hy
      refine .below ((List.suffix_cons c.1 route).trans hsuffix) ?_
      intro (heq : route = y.1)
      have hle := hsuffix.length_le
      rw [← heq, List.length_cons] at hle
      omega
    case beside =>
      refine List.pairwise_iff_forall_sublist.mpr fun {c d} hcd x hx y hy => ?_
      have hst : [c.1, d.1].Sublist n.childSlots := hcd.map Prod.fst
      exact .beside hn hst (suffix_of_mem_tour hx) (suffix_of_mem_tour hy)

end AnyNode

/-! ## Visitors -/

section

variable {μ : Type → Type} [Monad μ] [LawfulMonad μ]

theorem forM_flatMap {α β : Type} {l : List α} {f : α → List β} {g : α → μ PUnit}
    {h : β → μ PUnit} (hl : ∀ a ∈ l, g a = forM (f a) h) : forM l g = forM (l.flatMap f) h := by
  induction l with
  | nil => rfl
  | cons a l ih =>
    rw [List.forM_cons, List.flatMap_cons, List.forM_append, hl a List.mem_cons_self,
      ih fun b hb => hl b (List.mem_cons_of_mem a hb)]

theorem AnyNode.walk_eq (visit : Visit → μ Unit) (n : AnyNode) (ancestors : List AnyNode) :
    n.walk visit ancestors =
      (do visit ⟨n, ancestors⟩; forM n.children fun m => m.walk visit (n :: ancestors)) := by
  rw [walk]
  conv_rhs => rw [← List.attach_map_subtype_val n.children, List.forM_map]
  rfl

theorem AnyNode.walk_eq_forM (visit : Visit → μ Unit) (n : AnyNode) (ancestors : List AnyNode) :
    n.walk visit ancestors = forM (n.visits ancestors) visit := by
  induction n using AnyNode.induct generalizing ancestors with
  | step n ih =>
    rw [walk_eq, visits_eq, List.forM_cons, forM_flatMap fun m hm => ih m hm (n :: ancestors)]

end

/-- A visitor gathers something as it goes, and may fail. What it has gathered is not lost then. -/
abbrev Visitor (σ ε : Type) := Visit → ExceptT ε (StateM σ) Unit

namespace Visitor

variable {σ ε : Type}

/-- How an action of a visitor ends, and what is gathered by then. -/
def outcome (action : ExceptT ε (StateM σ) Unit) (s : σ) : Except ε Unit × σ :=
  (action.run.run s).run

theorem outcome_pure (s : σ) : outcome (pure () : ExceptT ε (StateM σ) Unit) s = (.ok (), s) := rfl

theorem outcome_bind_of_ok {first second : ExceptT ε (StateM σ) Unit} {s t : σ}
    (h : outcome first s = (.ok (), t)) : outcome (do first; second) s = outcome second t := by
  unfold outcome at h ⊢
  rw [ExceptT.run_bind, StateT.run_bind]
  simp [h]

theorem outcome_bind_of_error {first second : ExceptT ε (StateM σ) Unit} {s t : σ} {e : ε}
    (h : outcome first s = (.error e, t)) : outcome (do first; second) s = (.error e, t) := by
  unfold outcome at h ⊢
  rw [ExceptT.run_bind, StateT.run_bind]
  simp [h]

variable {visit : Visitor σ ε} {vs : List Visit} {s u : σ}

/-- The visitor makes these visits in order, all with success. -/
inductive Makes (visit : Visitor σ ε) : List Visit → σ → σ → Prop
  | nil {s : σ} : Makes visit [] s s
  | cons {v : Visit} {vs : List Visit} {s t u : σ} (hv : outcome (visit v) s = (.ok (), t))
      (hvs : Makes visit vs t u) : Makes visit (v :: vs) s u

theorem outcome_forM_eq_ok_iff : outcome (forM vs visit) s = (.ok (), u) ↔ visit.Makes vs s u := by
  constructor
  · intro h
    induction vs generalizing s with
    | nil =>
      rw [List.forM_nil, outcome_pure] at h
      cases h
      exact .nil
    | cons v vs ih =>
      rw [List.forM_cons] at h
      rcases hv : outcome (visit v) s with ⟨_ | ⟨⟩, t⟩
      · rw [outcome_bind_of_error hv] at h
        cases h
      · rw [outcome_bind_of_ok hv] at h
        exact .cons hv (ih h)
  · intro h
    induction h with
    | nil => rfl
    | cons hv _ ih => rw [List.forM_cons, outcome_bind_of_ok hv, ih]

theorem outcome_forM_eq_error_iff {e : ε} :
    outcome (forM vs visit) s = (.error e, u) ↔
      ∃ before v after t, vs = before ++ v :: after ∧ visit.Makes before s t ∧
        outcome (visit v) t = (.error e, u) := by
  constructor
  · intro h
    induction vs generalizing s with
    | nil => cases h
    | cons v vs ih =>
      rw [List.forM_cons] at h
      rcases hv : outcome (visit v) s with ⟨_ | ⟨⟩, t⟩
      · rw [outcome_bind_of_error hv] at h
        exact ⟨[], v, vs, s, rfl, .nil, hv.trans h⟩
      · rw [outcome_bind_of_ok hv] at h
        obtain ⟨before, w, after, t', rfl, hbefore, hw⟩ := ih h
        exact ⟨v :: before, w, after, t', rfl, .cons hv hbefore, hw⟩
  · rintro ⟨before, v, after, t, rfl, hbefore, hv⟩
    rw [List.forM_append, outcome_bind_of_ok (outcome_forM_eq_ok_iff.mpr hbefore), List.forM_cons,
      outcome_bind_of_error hv]

end Visitor

/-! ## The walk -/

open Visitor in
/-- The walk visits every node that is reached through slots, with the nodes on the way as its
ancestors, each once and in pre-order. If the visitor fails, it has made exactly the visits before
that, and the walk fails as it did. The slots of a node are distinct. If no two of its children share
an id, as when all ids below it are distinct, every expression among them is found in its own slot,
and no other id is found. -/
theorem walk_visits_in_preorder (n : AnyNode) :
    (∃ tour : List (List Slot × Visit), tour.map (·.2) = n.visits [] ∧
      (∀ route v, (route, v) ∈ tour ↔ Reaches n route v) ∧
      (tour.map (·.1)).Nodup ∧ (tour.map (·.1)).Pairwise (Precedes n)) ∧
    (∀ {σ ε : Type} (visit : Visitor σ ε) (s u : σ),
      (outcome (n.walk visit []) s = (.ok (), u) ↔ visit.Makes (n.visits []) s u) ∧
      ∀ e, outcome (n.walk visit []) s = (.error e, u) ↔
        ∃ before v after t, n.visits [] = before ++ v :: after ∧ visit.Makes before s t ∧
          outcome (visit v) t = (.error e, u)) ∧
    n.childSlots.Nodup ∧
    ((n.children.map (·.id)).Nodup →
      (∀ s (e : Expr), (s, ⟨e⟩) ∈ n.node.children → n.slotOf e.id = some s) ∧
      ∀ id, (∀ e : Expr, ⟨e⟩ ∈ n.children → e.id ≠ id) → n.slotOf id = none) := by
  refine ⟨⟨n.tour [] [], map_snd_tour n [] [], ?_, ?_, ?_⟩, ?_, n.nodup_childSlots, ?_⟩
  · exact fun route v => ⟨reaches_of_mem_tour .root, mem_tour_of_reaches⟩
  · rw [List.Nodup, List.pairwise_map]
    exact (pairwise_tour .root).imp Precedes.ne
  · rw [List.pairwise_map]
    exact pairwise_tour .root
  · intro σ ε visit s u
    rw [walk_eq_forM]
    exact ⟨outcome_forM_eq_ok_iff, fun e => outcome_forM_eq_error_iff⟩
  · intro hids
    exact ⟨fun s e he => slotOf_eq_some hids he, fun id hid => slotOf_eq_none hid⟩

/-- `case a, b: fallthrough`. -/
def caseOfNames : Node .caseClause :=
  .caseClause 3 [.ident 4 "a", .ident 5 "b"] [.branch 6 .fallthrough none]

/-- `switch x { case a, b: fallthrough }`. -/
def switchOnName : Stmt := .switchStmt 1 none (some (.ident 2 "x")) [caseOfNames]

/-- Gathers the ids of the nodes, and fails at one of them. -/
def Visitor.upTo (last : NodeId) : Visitor (List NodeId) NodeId := fun v =>
  if v.node.id = last then throw last else modify (v.node.id :: ·)

open Visitor in
/-- A visitor that fails at the name `b` has gathered everything before. The tag of the switch is an
expression, its clause is none. -/
theorem switchOnName_walked :
    outcome (walk (upTo 5) ⟨switchOnName⟩ []) [] = (.error 5, [4, 3, 2, 1]) ∧
      ((AnyNode.children ⟨switchOnName⟩).map (·.id)).Nodup ∧
      slotOf ⟨switchOnName⟩ 2 = some ⟨"Tag", none⟩ ∧ slotOf ⟨switchOnName⟩ 3 = none := by
  obtain ⟨-, hvisit, -, hslots⟩ := walk_visits_in_preorder ⟨switchOnName⟩
  have hids : ((AnyNode.children ⟨switchOnName⟩).map (·.id)).Nodup := by decide
  obtain ⟨hsome, hnone⟩ := hslots hids
  refine ⟨((hvisit (upTo 5) [] _).2 5).mpr ?_, hids, hsome _ (.ident 2 "x") ?_, hnone 3 ?_⟩
  · have hvisits : visits ⟨switchOnName⟩ [] =
        [⟨⟨switchOnName⟩, []⟩, ⟨⟨.ident 2 "x"⟩, [⟨switchOnName⟩]⟩,
          ⟨⟨caseOfNames⟩, [⟨switchOnName⟩]⟩, ⟨⟨.ident 4 "a"⟩, [⟨caseOfNames⟩, ⟨switchOnName⟩]⟩] ++
        ⟨⟨.ident 5 "b"⟩, [⟨caseOfNames⟩, ⟨switchOnName⟩]⟩ ::
        [⟨⟨.branch 6 .fallthrough none⟩, [⟨caseOfNames⟩, ⟨switchOnName⟩]⟩] := by cbv
    exact ⟨_, _, _, _, hvisits, .cons rfl (.cons rfl (.cons rfl (.cons rfl .nil))), rfl⟩
  · exact List.mem_cons_self
  · intro e he
    simp [AnyNode.children, switchOnName, Node.children, Slot.opt, Slot.many] at he
    rw [he]
    decide

end ConvSweep
