import ConvSweep.Proofs.Identity

/-! # Reordered methods

Identity is equality of normal forms, so the order in which an interface lists its methods does not
matter, wherever in a type the interface stands.
-/

namespace ConvSweep

/-! ## Sorted methods -/

theorem Method.sorted_perm (ms : List Method) : (Method.sorted ms).Perm ms := List.mergeSort_perm _ _

theorem Method.pairwise_sorted (ms : List Method) :
    (Method.sorted ms).Pairwise fun m n => m.name ≤ n.name := by
  have htrans : ∀ a b c : Method, decide (a.name ≤ b.name) = true →
      decide (b.name ≤ c.name) = true → decide (a.name ≤ c.name) = true := by
    simpa using fun a b c : Method => String.le_trans
  have htotal : ∀ a b : Method, (decide (a.name ≤ b.name) || decide (b.name ≤ a.name)) = true := by
    simpa using fun a b : Method => String.le_total a.name b.name
  simpa [Method.sorted] using List.pairwise_mergeSort htrans htotal ms

theorem Method.sorted_eq_of_perm {ms ns : List Method} (h : ms.Perm ns)
    (hnames : (ms.map (·.name)).Nodup) : Method.sorted ms = Method.sorted ns := by
  have hperm : (Method.sorted ms).Perm (Method.sorted ns) :=
    (Method.sorted_perm ms).trans (h.trans (Method.sorted_perm ns).symm)
  refine hperm.eq_of_pairwise ?_ (Method.pairwise_sorted ms) (Method.pairwise_sorted ns)
  intro m n hm hn hle hge
  have hm' : m ∈ ms := Method.mem_sorted.mp hm
  have hn' : n ∈ ms := h.mem_iff.mpr (Method.mem_sorted.mp hn)
  exact List.inj_on_of_nodup_map hnames hm' hn' (String.le_antisymm hle hge)

/-! ## Reordering -/

/-- The second type is the first one with the methods of one interface, at any depth, in another
order. No two methods of that interface have the same name. -/
inductive GoType.Reorders : GoType → GoType → Prop
  | here {ms ns : List Method} (h : ms.Perm ns) (hnames : (ms.map (·.name)).Nodup) :
      Reorders (.interface ms) (.interface ns)
  | pointer {a b : GoType} (h : Reorders a b) : Reorders (.pointer a) (.pointer b)
  | slice {a b : GoType} (h : Reorders a b) : Reorders (.slice a) (.slice b)
  | array {a b : GoType} (len : Nat) (h : Reorders a b) : Reorders (.array len a) (.array len b)
  | key {a b : GoType} (value : GoType) (h : Reorders a b) : Reorders (.map a value) (.map b value)
  | value {a b : GoType} (key : GoType) (h : Reorders a b) : Reorders (.map key a) (.map key b)
  | chan {a b : GoType} (dir : ChanDir) (h : Reorders a b) : Reorders (.chan dir a) (.chan dir b)
  | field {a b : GoType} (before after : List FieldType) (name : String) (embedded : Bool)
      (tag : Option String) (h : Reorders a b) :
      Reorders (.struct (before ++ ⟨name, a, embedded, tag⟩ :: after))
        (.struct (before ++ ⟨name, b, embedded, tag⟩ :: after))
  | param {a b : GoType} (before after results : List GoType) (variadic : Bool)
      (h : Reorders a b) :
      Reorders (.func ⟨before ++ a :: after, results, variadic⟩)
        (.func ⟨before ++ b :: after, results, variadic⟩)
  | result {a b : GoType} (params before after : List GoType) (variadic : Bool)
      (h : Reorders a b) :
      Reorders (.func ⟨params, before ++ a :: after, variadic⟩)
        (.func ⟨params, before ++ b :: after, variadic⟩)
  | method {s t : FuncSig} (before after : List Method) (name : String)
      (h : Reorders (.func s) (.func t)) :
      Reorders (.interface (before ++ ⟨name, s⟩ :: after))
        (.interface (before ++ ⟨name, t⟩ :: after))

theorem GoType.Reorders.normal_eq {a b : GoType} (h : Reorders a b) : a.normal = b.normal := by
  induction h with
  | @here ms ns h hnames =>
    have hnames' : ((Method.normalAll ms).map (·.name)).Nodup := by
      rw [Method.normalAll_eq, List.map_map]
      exact hnames
    rw [GoType.normal, GoType.normal]
    congr 1
    refine Method.sorted_eq_of_perm ?_ hnames'
    rw [Method.normalAll_eq, Method.normalAll_eq]
    exact h.map _
  | pointer _ ih => rw [GoType.normal, GoType.normal, ih]
  | slice _ ih => rw [GoType.normal, GoType.normal, ih]
  | array len _ ih => rw [GoType.normal, GoType.normal, ih]
  | key value _ ih => rw [GoType.normal, GoType.normal, ih]
  | value key _ ih => rw [GoType.normal, GoType.normal, ih]
  | chan dir _ ih => rw [GoType.normal, GoType.normal, ih]
  | field before after name embedded tag _ ih =>
    simp [GoType.normal, FieldType.normalAll_eq, FieldType.normal, ih]
  | param before after results variadic _ ih =>
    simp [GoType.normal, FuncSig.normal, GoType.normalAll_eq, ih]
  | result params before after variadic _ ih =>
    simp [GoType.normal, FuncSig.normal, GoType.normalAll_eq, ih]
  | method before after name _ ih =>
    simp only [GoType.normal, GoType.func.injEq] at ih
    simp [GoType.normal, Method.normalAll_eq, Method.normal, ih]

theorem GoType.normal_eq_of_reordered {a b : GoType}
    (h : Relation.ReflTransGen GoType.Reorders a b) : a.normal = b.normal := by
  induction h with
  | refl => rfl
  | tail _ h ih => exact ih.trans h.normal_eq

/-! ## Identity -/

theorem identical_refl (a : GoType) : identical a a = true := (identical_iff a a).mpr rfl

theorem identical_congr {a b : GoType} (h : a.normal = b.normal) (c : GoType) :
    identical a c = identical b c ∧ identical c a = identical c b := by
  constructor
  · rw [Bool.eq_iff_iff, identical_iff, identical_iff, h]
  · rw [Bool.eq_iff_iff, identical_iff, identical_iff, h]

/-- Types are identical exactly if their normal forms are equal. Hence identity is an equivalence,
equal types are identical, and interfaces may list their methods in any order. -/
theorem identity_is_normal_equality :
    (∀ a b : GoType, identical a b = true ↔ a.normal = b.normal) ∧
    (Equivalence fun a b : GoType => identical a b = true) ∧
    (∀ a b : GoType, a = b → identical a b = true) ∧
    ∀ a b : GoType, Relation.ReflTransGen GoType.Reorders a b →
      ∀ c, identical a c = identical b c ∧ identical c a = identical c b := by
  refine ⟨identical_iff, ⟨identical_refl, identical_symm, identical_trans⟩, ?_, ?_⟩
  · rintro a b rfl
    exact identical_refl a
  · intro a b h c
    exact identical_congr (GoType.normal_eq_of_reordered h) c

/-- `func(*interface{ A() int; B() string })` takes the interface in either order. -/
theorem reorderedParameter_identical :
    let a : Method := ⟨"A", ⟨[], [.basic .int], false⟩⟩
    let b : Method := ⟨"B", ⟨[], [.basic .string], false⟩⟩
    identical (.func ⟨[.pointer (.interface [a, b])], [], false⟩)
      (.func ⟨[.pointer (.interface [b, a])], [], false⟩) = true := by
  intro a b
  have hswap : GoType.Reorders (.interface [b, a]) (.interface [a, b]) :=
    .here (List.Perm.swap a b []) (by decide)
  have h : Relation.ReflTransGen GoType.Reorders
      (.func ⟨[.pointer (.interface [b, a])], [], false⟩)
      (.func ⟨[.pointer (.interface [a, b])], [], false⟩) :=
    .single (.param [] [] [] false (.pointer hswap))
  rw [(identity_is_normal_equality.2.2.2 _ _ h _).2]
  exact identical_refl _

end ConvSweep
