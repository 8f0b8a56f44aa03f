import Mathlib
import ConvSweep.EditSet
import ConvSweep.Proofs.Conversions

/-! # What an edit set holds

An edit set is a sorted list of entries. From outside it is the relation `EditSet.Has` between paths
and removals: every operation is described by what it does to that relation, and two sets that agree
on it are the same.
-/

namespace ConvSweep

theorem eq_of_sorted_keys {α κ : Type} [Preorder κ] {key : α → κ} {as bs : List α}
    (ha : as.Pairwise fun x y => key x < key y) (hb : bs.Pairwise fun x y => key x < key y)
    (h : ∀ x, x ∈ as ↔ x ∈ bs) : as = bs := by
  have : Std.Irrefl fun x y : α => key x < key y := ⟨fun x => lt_irrefl (key x)⟩
  have : Std.Antisymm fun x y : α => key x < key y := ⟨fun _ _ hxy hyx => (lt_asymm hxy hyx).elim⟩
  exact ha.eq_of_mem_iff hb h

namespace RemovalSet

variable {s t : RemovalSet} {r : Removal}

theorem mem_inter : r ∈ (s.inter t).toList ↔ r ∈ s.toList ∧ r ∈ t.toList := by
  simp [inter, contains]

theorem isEmpty_eq_false_iff : s.isEmpty = false ↔ ∃ r, r ∈ s.toList := by
  rw [isEmpty, List.isEmpty_eq_false_iff_exists_mem]

theorem toList_ext (h : ∀ r, r ∈ s.toList ↔ r ∈ t.toList) : s.toList = t.toList :=
  eq_of_sorted_keys s.sorted t.sorted h

end RemovalSet

namespace EditSet

variable {set a b : EditSet} {p q : Path} {s : RemovalSet} {r : Removal}

/-! ## Entries -/

theorem entry?_congr (h : p.key = q.key) : set.entry? p = set.entry? q := by
  unfold entry?
  rw [h]

theorem eq_of_key {x y : Path × RemovalSet} (hx : x ∈ set.entries) (hy : y ∈ set.entries)
    (h : x.1.key = y.1.key) : x = y := by
  have hnodup : (set.entries.map (·.1.key)).Nodup :=
    List.pairwise_map.mpr (set.sorted.imp ne_of_lt)
  exact List.inj_on_of_nodup_map hnodup hx hy h

theorem entry?_eq_some_iff : set.entry? p = some s ↔ ∃ q, (q, s) ∈ set.entries ∧ q.key = p.key := by
  unfold entry?
  rw [Option.map_eq_some_iff]
  constructor
  · rintro ⟨⟨q, s⟩, hfind, rfl⟩
    exact ⟨q, List.mem_of_find?_eq_some hfind, by simpa using List.find?_some hfind⟩
  · rintro ⟨q, hmem, hq⟩
    cases hfind : set.entries.find? fun e => e.1.key == p.key with
    | none =>
      have := List.find?_eq_none.mp hfind _ hmem
      simp [hq] at this
    | some e =>
      have he : e.1.key = p.key := by simpa using List.find?_some hfind
      have heq : e = (q, s) := eq_of_key (List.mem_of_find?_eq_some hfind) hmem (he.trans hq.symm)
      exact ⟨e, rfl, by rw [heq]⟩

theorem find?_alterEntries {f : Option RemovalSet → RemovalSet} {es : List (Path × RemovalSet)}
    (h : es.Pairwise fun x y => x.1.key < y.1.key) :
    ((alterEntries p f es).find? fun e => e.1.key == q.key).map (·.2) =
      if p.key = q.key then some (f ((es.find? fun e => e.1.key == p.key).map (·.2)))
      else (es.find? fun e => e.1.key == q.key).map (·.2) := by
  induction es with
  | nil =>
    by_cases hpq : p.key = q.key
    · simp [alterEntries, hpq]
    · simp [alterEntries, hpq]
  | cons e es ih =>
    obtain ⟨x, s⟩ := e
    obtain ⟨hx, hes⟩ := List.pairwise_cons.mp h
    unfold alterEntries
    split
    · rename_i hpx
      -- Every key from here on is greater than that of the path.
      have hnone : (((x, s) :: es).find? fun e => e.1.key == p.key) = none := by
        rw [List.find?_eq_none]
        intro y hy
        have hlt : p.key < y.1.key := by
          rcases List.mem_cons.mp hy with rfl | hy
          · exact hpx
          · exact lt_trans hpx (hx y hy)
        simpa using (ne_of_lt hlt).symm
      by_cases hpq : p.key = q.key
      · rw [hnone, if_pos hpq]
        simp [hpq]
      · simp [List.find?_cons, hpq]
    · split
      · rename_i hxp
        have hne : x.key ≠ p.key := ne_of_lt hxp
        by_cases hxq : x.key = q.key
        · have hpq : p.key ≠ q.key := fun h => hne (hxq.trans h.symm)
          simp [hxq, hpq]
        · simpa [List.find?_cons, hxq, hne] using ih hes
      · rename_i hpx hxp
        have heq : p.key = x.key := le_antisymm (not_lt.mp hxp) (not_lt.mp hpx)
        by_cases hpq : p.key = q.key
        · simp [← heq, hpq]
        · simp [← heq, hpq]

theorem entry?_insertFile :
    EditSet.entry? (set.insertFile p s) q =
      if p.key = q.key then some (((set.entry? p).map (·.inter s)).getD s) else set.entry? q := by
  unfold insertFile alter entry?
  rw [find?_alterEntries set.sorted]
  cases (set.entries.find? fun e => e.1.key == p.key).map (·.2) with
  | none => rfl
  | some t => rfl

/-! ## What is visible -/

/-- The removal is among those of the path. -/
def Has (set : EditSet) (p : Path) (r : Removal) : Prop :=
  ∃ s, set.removals? p = some s ∧ r ∈ s.toList

theorem has_iff_exists_entry : set.Has p r ↔ ∃ s, set.entry? p = some s ∧ r ∈ s.toList := by
  unfold Has removals?
  constructor
  · rintro ⟨s, hs, hr⟩
    exact ⟨s, (Option.filter_eq_some_iff.mp hs).1, hr⟩
  · rintro ⟨s, hs, hr⟩
    have hempty : s.isEmpty = false := RemovalSet.isEmpty_eq_false_iff.mpr ⟨r, hr⟩
    exact ⟨s, Option.filter_eq_some_iff.mpr ⟨hs, by simp [hempty]⟩, hr⟩

theorem has_iff_mem : set.Has p r ↔ ∃ e ∈ set.entries, e.1.key = p.key ∧ r ∈ e.2.toList := by
  simp only [has_iff_exists_entry, entry?_eq_some_iff, Prod.exists]
  constructor
  · rintro ⟨s, ⟨q, hmem, hq⟩, hr⟩
    exact ⟨q, s, hmem, hq, hr⟩
  · rintro ⟨q, s, hmem, hq, hr⟩
    exact ⟨s, ⟨q, hmem, hq⟩, hr⟩

theorem has_inter : (a.inter b).Has p r ↔ a.Has p r ∧ b.Has p r := by
  have hget : ∀ q : Path, r ∈ ((b.entry? q).getD .empty).toList ↔ b.Has q r := by
    intro q
    rw [has_iff_exists_entry]
    cases b.entry? q <;> simp [RemovalSet.empty]
  rw [has_iff_mem, has_iff_mem]
  simp only [inter, List.mem_filter, List.mem_map]
  constructor
  · rintro ⟨e, ⟨⟨⟨q, s⟩, hmem, rfl⟩, -⟩, hq, hr⟩
    obtain ⟨hs, hb⟩ := RemovalSet.mem_inter.mp hr
    refine ⟨⟨(q, s), hmem, hq, hs⟩, ?_⟩
    have hbq := (hget q).mp hb
    rwa [has_iff_exists_entry, entry?_congr hq, ← has_iff_exists_entry] at hbq
  · rintro ⟨⟨⟨q, s⟩, hmem, hq, hs⟩, hb⟩
    rw [has_iff_exists_entry, ← entry?_congr hq, ← has_iff_exists_entry] at hb
    have hr := RemovalSet.mem_inter.mpr ⟨hs, (hget q).mpr hb⟩
    have hempty := RemovalSet.isEmpty_eq_false_iff.mpr ⟨r, hr⟩
    exact ⟨_, ⟨⟨(q, s), hmem, rfl⟩, by simp [hempty]⟩, hq, hr⟩

/-- The files as they are compared: keys of paths, with lists of removals. -/
def view (set : EditSet) : List (List (List Nat) × List Removal) :=
  set.files.map fun e => (e.1.key, e.2.toList)

theorem sorted_view (set : EditSet) : set.view.Pairwise fun x y => x.1 < y.1 :=
  List.pairwise_map.mpr (set.sorted.filter _)

theorem mem_view {k : List (List Nat)} {rs : List Removal} :
    (k, rs) ∈ set.view ↔ ∃ e ∈ set.entries, e.2.toList ≠ [] ∧ e.1.key = k ∧ e.2.toList = rs := by
  simp [view, files, RemovalSet.isEmpty, and_assoc]

theorem mem_view_of_has (h : ∀ p r, a.Has p r ↔ b.Has p r) {x : List (List Nat) × List Removal}
    (hx : x ∈ a.view) : x ∈ b.view := by
  obtain ⟨k, rs⟩ := x
  obtain ⟨⟨p, s⟩, hp, hne, rfl, rfl⟩ := mem_view.mp hx
  obtain ⟨r, hr⟩ := List.exists_mem_of_ne_nil _ hne
  obtain ⟨⟨q, t⟩, hq, hkey, hrt⟩ := has_iff_mem.mp ((h p r).mp (has_iff_mem.mpr ⟨_, hp, rfl, hr⟩))
  have heq : t.toList = s.toList := by
    refine RemovalSet.toList_ext fun r' => ?_
    have hs : a.Has p r' ↔ r' ∈ s.toList := by
      rw [has_iff_mem]
      refine ⟨?_, fun hr' => ⟨_, hp, rfl, hr'⟩⟩
      rintro ⟨e, he, hek, hr'⟩
      rwa [eq_of_key he hp hek] at hr'
    have ht : b.Has p r' ↔ r' ∈ t.toList := by
      rw [has_iff_mem]
      refine ⟨?_, fun hr' => ⟨_, hq, hkey, hr'⟩⟩
      rintro ⟨e, he, hek, hr'⟩
      rwa [eq_of_key he hq (hek.trans hkey.symm)] at hr'
    rw [← ht, ← hs, h]
  exact mem_view.mpr ⟨(q, t), hq, List.ne_nil_of_mem hrt, hkey, heq⟩

theorem same_iff : a.same b = true ↔ ∀ p r, a.Has p r ↔ b.Has p r := by
  have hview : a.same b = true ↔ a.view = b.view := beq_iff_eq
  rw [hview]
  constructor
  · intro heq p r
    have hhas : ∀ set : EditSet, set.Has p r ↔ ∃ rs, (p.key, rs) ∈ set.view ∧ r ∈ rs := by
      intro set
      rw [has_iff_mem]
      simp only [mem_view]
      constructor
      · rintro ⟨e, he, hkey, hr⟩
        exact ⟨_, ⟨e, he, List.ne_nil_of_mem hr, hkey, rfl⟩, hr⟩
      · rintro ⟨_, ⟨e, he, -, hkey, rfl⟩, hr⟩
        exact ⟨e, he, hkey, hr⟩
    rw [hhas, hhas, heq]
  · intro h
    exact eq_of_sorted_keys a.sorted_view b.sorted_view fun x =>
      ⟨mem_view_of_has h, mem_view_of_has fun p r => (h p r).symm⟩

end EditSet

end ConvSweep
