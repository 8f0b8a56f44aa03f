import Mathlib
import ConvSweep.Types.Identity

/-! # Identity is an equivalence

Two types are identical exactly if their normal forms are equal.
-/

namespace ConvSweep

/-! ## Rows that are compared in step -/

theorem all_attach_zip {α β : Type} {as : List α} {bs : List β} {p : { a // a ∈ as } × β → Bool}
    {q : α → β → Bool} (h : ∀ x, p x = q x.1.1 x.2) :
    (as.attach.zip bs).all p = (as.zip bs).all fun x => q x.1 x.2 := by
  have hzip : as.zip bs = (as.attach.zip bs).map (Prod.map Subtype.val id) := by
    rw [← List.zip_map, List.attach_map_subtype_val, List.map_id]
  rw [hzip, List.all_map]
  congr 1
  exact funext h

theorem all_zip_iff {α β γ : Type} {f : α → γ} {g : β → γ} {q : α → β → Bool} {as : List α}
    (h : ∀ a ∈ as, ∀ b, q a b = true ↔ f a = g b) (bs : List β) :
    (as.length = bs.length ∧ (as.zip bs).all (fun x => q x.1 x.2) = true) ↔
      as.map f = bs.map g := by
  induction as generalizing bs with
  | nil => cases bs <;> simp
  | cons a as ih =>
    cases bs with
    | nil => simp
    | cons b bs =>
      have hrest := ih (fun x hx => h x (List.mem_cons_of_mem _ hx)) bs
      simp only [List.length_cons, Nat.add_right_cancel_iff, List.zip_cons_cons, List.all_cons,
        Bool.and_eq_true, h a List.mem_cons_self b, List.map_cons, List.cons.injEq, ← hrest]
      tauto

/-! ## Normal forms, part by part -/

def FieldType.normal (f : FieldType) : FieldType := ⟨f.name, f.type.normal, f.embedded, f.tag⟩

def Method.normal (m : Method) : Method := ⟨m.name, m.sig.normal⟩

theorem GoType.normalAll_eq (as : List GoType) : GoType.normalAll as = as.map GoType.normal := by
  induction as with
  | nil => rfl
  | cons a as ih => rw [GoType.normalAll, ih, List.map_cons]

theorem FieldType.normalAll_eq (fs : List FieldType) :
    FieldType.normalAll fs = fs.map FieldType.normal := by
  induction fs with
  | nil => rfl
  | cons f fs ih =>
    cases f
    rw [FieldType.normalAll, ih, List.map_cons]
    rfl

theorem Method.normalAll_eq (ms : List Method) : Method.normalAll ms = ms.map Method.normal := by
  induction ms with
  | nil => rfl
  | cons m ms ih =>
    cases m
    rw [Method.normalAll, ih, List.map_cons]
    rfl

theorem Method.sorted_normalAll (ms : List Method) :
    Method.sorted (Method.normalAll ms) = (Method.sorted ms).map Method.normal := by
  rw [Method.normalAll_eq, Method.sorted, Method.sorted, List.map_mergeSort]
  intro a _ b _
  rfl

/-! ## Identity -/

def FieldType.identicalTo (f g : FieldType) : Bool :=
  f.name = g.name && f.embedded = g.embedded && f.tag = g.tag && identical f.type g.type

def Method.identicalTo (m n : Method) : Bool := m.name = n.name && identicalSigs m.sig n.sig

mutual

theorem identical_iff : ∀ a b : GoType, identical a b = true ↔ a.normal = b.normal
  | .basic _, b => by cases b <;> simp [identical, GoType.normal]
  | .named _, b => by cases b <;> simp [identical, GoType.normal]
  | .pointer a, b => by cases b <;> simp [identical, GoType.normal, identical_iff a]
  | .slice a, b => by cases b <;> simp [identical, GoType.normal, identical_iff a]
  | .array _ a, b => by cases b <;> simp [identical, GoType.normal, identical_iff a]
  | .map k a, b => by cases b <;> simp [identical, GoType.normal, identical_iff k, identical_iff a]
  | .chan _ a, b => by cases b <;> simp [identical, GoType.normal, identical_iff a]
  | .struct fs, b => by
    cases b
    case struct gs =>
      have hfields := FieldType.identical_iff_of_mem fs
      rw [identical, GoType.normal, GoType.normal, GoType.struct.injEq, FieldType.normalAll_eq,
        FieldType.normalAll_eq, Bool.and_eq_true, decide_eq_true_eq, all_attach_zip
          (q := FieldType.identicalTo) (fun ⟨⟨⟨_, _, _, _⟩, _⟩, _⟩ => rfl)]
      refine all_zip_iff (fun f hf g => ?_) gs
      simp only [FieldType.identicalTo, FieldType.normal, Bool.and_eq_true, decide_eq_true_eq,
        hfields f hf g.type, FieldType.mk.injEq]
      tauto
    all_goals simp [identical, GoType.normal]
  | .func a, b => by cases b <;> simp [identical, GoType.normal, identicalSigs_iff a]
  | .interface ms, b => by
    cases b
    case interface ns =>
      have hsigs := Method.identicalSigs_iff_of_mem ms
      rw [identical, GoType.normal, GoType.normal, GoType.interface.injEq, Method.sorted_normalAll,
        Method.sorted_normalAll, Bool.and_eq_true, decide_eq_true_eq, all_attach_zip
          (q := Method.identicalTo) (fun ⟨⟨⟨_, _⟩, _⟩, _⟩ => rfl)]
      -- Methods are sorted by name before they are compared, which keeps their number.
      have hlength : ms.length = ns.length ↔
          (Method.sorted ms).length = (Method.sorted ns).length := by simp [Method.sorted]
      rw [hlength]
      refine all_zip_iff (fun m hm n => ?_) _
      simp only [Method.identicalTo, Method.normal, Bool.and_eq_true, decide_eq_true_eq,
        hsigs m (Method.mem_sorted.mp hm) n.sig, Method.mk.injEq]
    all_goals simp [identical, GoType.normal]

theorem identicalAll_iff :
    ∀ as bs : List GoType, identicalAll as bs = true ↔ GoType.normalAll as = GoType.normalAll bs
  | [], bs => by cases bs <;> simp [identicalAll, GoType.normalAll]
  | a :: as, [] => by simp [identicalAll, GoType.normalAll]
  | a :: as, b :: bs => by
    simp [identicalAll, GoType.normalAll, identical_iff a b, identicalAll_iff as bs]

theorem FieldType.identical_iff_of_mem :
    ∀ fs : List FieldType, ∀ f ∈ fs, ∀ b, identical f.type b = true ↔ f.type.normal = b.normal
  | ⟨_, a, _, _⟩ :: fs, f, hf, b => by
    rcases List.mem_cons.mp hf with rfl | hf
    · exact identical_iff a b
    · exact FieldType.identical_iff_of_mem fs f hf b

theorem identicalSigs_iff : ∀ s t : FuncSig, identicalSigs s t = true ↔ s.normal = t.normal
  | ⟨ps, rs, _⟩, ⟨ps', rs', _⟩ => by
    simp [identicalSigs, FuncSig.normal, identicalAll_iff ps ps', identicalAll_iff rs rs']
    tauto

theorem Method.identicalSigs_iff_of_mem :
    ∀ ms : List Method, ∀ m ∈ ms, ∀ s, identicalSigs m.sig s = true ↔ m.sig.normal = s.normal
  | ⟨_, sig⟩ :: ms, m, hm, s => by
    rcases List.mem_cons.mp hm with rfl | hm
    · exact identicalSigs_iff sig s
    · exact Method.identicalSigs_iff_of_mem ms m hm s

end

theorem identical_symm {a b : GoType} (h : identical a b = true) : identical b a = true := by
  rw [identical_iff] at h ⊢
  exact h.symm

theorem identical_trans {a b c : GoType} (h : identical a b = true) (h' : identical b c = true) :
    identical a c = true := by
  rw [identical_iff] at h h' ⊢
  exact h.trans h'

end ConvSweep
