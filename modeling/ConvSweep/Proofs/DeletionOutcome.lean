import ConvSweep.Proofs.Deletion

/-! # What deletion answers to any edits

Which edits are accepted and what is then left, which fault is reported otherwise, and that copying
never reaches outside the text. Edits may come in any order, repeated, nested, reversed or beyond the
end.
-/

namespace ConvSweep

namespace Deletion

/-! ## Edits one after the other -/

/-- The edits lie one after the other, between an offset and the end of the text. -/
structure InOrder (length cursor : Nat) (es : List Edit) : Prop where
  bound : cursor ≤ length
  fits : ∀ e ∈ es, cursor ≤ e.start ∧ e.Fits length
  apart : es.Pairwise fun a b => a.stop ≤ b.start

theorem InOrder.tail {length cursor : Nat} {e : Edit} {es : List Edit}
    (h : InOrder length cursor (e :: es)) : InOrder length e.stop es := by
  obtain ⟨hlt, hfit⟩ := List.forall_mem_cons.mp h.fits
  obtain ⟨hle, hes⟩ := List.pairwise_cons.mp h.apart
  exact ⟨hlt.2.2, fun a ha => ⟨hle a ha, (hfit a ha).2⟩, hes⟩

theorem inOrder_of_validate {length : Nat} {edits sorted : List Edit}
    (h : validate length edits = .ok sorted) : InOrder length 0 sorted := by
  obtain ⟨rfl, hfit, hapart⟩ := (validate_eq_ok_iff length edits sorted).mp h
  have hperm := List.mergeSort_perm edits Edit.le
  have hfit' : ∀ e ∈ edits.mergeSort Edit.le, e.Fits length := fun e he => hfit e (hperm.mem_iff.mp he)
  rw [← hperm.pairwise_iff Edit.overlaps_symm] at hapart
  refine ⟨Nat.zero_le _, fun e he => ⟨Nat.zero_le _, hfit' e he⟩, ?_⟩
  refine ((pairwise_mergeSort_le edits).and hapart).imp_of_mem ?_
  rintro a b ha hb ⟨hle, hab⟩
  have hb' := (hfit' b hb).1
  rw [Edit.le_iff] at hle
  rw [Edit.overlaps_eq_false_iff] at hab
  omega

/-! ## Copying stays inside the text -/

/-- The bytes from one offset to another, if the text has them. -/
def slice? (bytes : List UInt8) (start stop : Nat) : Option (List UInt8) :=
  if start ≤ stop ∧ stop ≤ bytes.length then some ((bytes.take stop).drop start) else none

/-- `keep`, where every range that is copied has to be one of the text. -/
def keep? (bytes : List UInt8) (cursor : Nat) : List Edit → Option (List UInt8)
  | [] => slice? bytes cursor bytes.length
  | e :: es => do
    let before ← slice? bytes cursor e.start
    let rest ← keep? bytes e.stop es
    return before ++ rest

/-- The number of bytes that the edits delete, each edit counted for itself. -/
def removed : List Edit → Nat
  | [] => 0
  | e :: es => e.length + removed es

theorem InOrder.keep?_eq {bytes : List UInt8} {cursor : Nat} {es : List Edit}
    (h : InOrder bytes.length cursor es) : keep? bytes cursor es = some (keep bytes cursor es) := by
  induction es generalizing cursor with
  | nil => simp [keep?, keep, slice?, h.bound]
  | cons e es ih =>
    obtain ⟨hle, hlt, hstop⟩ := h.fits e List.mem_cons_self
    have hstart : e.start ≤ bytes.length := by omega
    simp [keep?, keep, slice?, ih h.tail, hle, hstart]

theorem InOrder.length_keep {bytes : List UInt8} {cursor : Nat} {es : List Edit}
    (h : InOrder bytes.length cursor es) :
    (keep bytes cursor es).length + removed es = bytes.length - cursor := by
  induction es generalizing cursor with
  | nil => simp [keep, removed]
  | cons e es ih =>
    obtain ⟨hle, hlt, hstop⟩ := h.fits e List.mem_cons_self
    have hrest := ih h.tail
    simp only [keep, removed, List.length_append, List.length_drop, List.length_take,
      Edit.length] at hrest ⊢
    omega

/-! ## What is left -/

/-- Whether an edit deletes the byte at an offset. -/
def covers (e : Edit) (offset : Nat) : Bool := e.start ≤ offset && offset < e.stop

/-- The bytes from `cursor` on that lie in no edit. -/
def uncoveredFrom (bytes : List UInt8) (cursor : Nat) (edits : List Edit) : List UInt8 :=
  ((bytes.zipIdx.drop cursor).filter fun p => !edits.any (covers · p.2)).map (·.1)

/-- The bytes that lie in no edit. -/
def uncovered (bytes : List UInt8) (edits : List Edit) : List UInt8 := uncoveredFrom bytes 0 edits

theorem uncovered_perm {bytes : List UInt8} {edits edits' : List Edit} (h : edits.Perm edits') :
    uncovered bytes edits = uncovered bytes edits' := by
  simp only [uncovered, uncoveredFrom, h.any_eq]

theorem index_of_mem_slice {bytes : List UInt8} {start stop : Nat} {p : UInt8 × Nat}
    (h : p ∈ (bytes.zipIdx.take stop).drop start) : start ≤ p.2 ∧ p.2 < stop := by
  obtain ⟨i, hi, rfl⟩ := List.mem_iff_getElem.mp h
  simp only [List.length_drop, List.length_take, List.length_zipIdx] at hi
  simp only [List.getElem_drop, List.getElem_take, List.getElem_zipIdx]
  omega

theorem drop_eq_slices {α : Type} (l : List α) {i j k : Nat} (hij : i ≤ j) (hjk : j ≤ k) :
    l.drop i = (l.take j).drop i ++ ((l.take k).drop j ++ l.drop k) := by
  have hcut : ∀ {a b : Nat}, a ≤ b → l.drop a = (l.take b).drop a ++ l.drop b := by
    intro a b hab
    conv => lhs; rw [← List.take_append_drop b l]
    rw [List.drop_append]
    simp only [List.length_take]
    by_cases hb : b ≤ l.length
    · rw [Nat.min_eq_left hb, Nat.sub_eq_zero_of_le hab, List.drop_zero]
    · have hnil : l.drop b = [] := List.drop_eq_nil_of_le (by omega)
      simp [hnil]
  rw [hcut hij, hcut hjk]

theorem InOrder.keep_eq {bytes : List UInt8} {cursor : Nat} {es : List Edit}
    (h : InOrder bytes.length cursor es) : keep bytes cursor es = uncoveredFrom bytes cursor es := by
  induction es generalizing cursor with
  | nil => simp [keep, uncoveredFrom, List.map_drop, List.zipIdx_map_fst]
  | cons e es ih =>
    obtain ⟨hle, hlt, hstop⟩ := h.fits e List.mem_cons_self
    have hlater : ∀ a ∈ es, e.stop ≤ a.start := (List.pairwise_cons.mp h.apart).1
    unfold keep uncoveredFrom
    rw [ih h.tail, drop_eq_slices bytes.zipIdx hle (Nat.le_of_lt hlt), List.filter_append, List.filter_append,
      List.map_append, List.map_append]
    -- Before the edit nothing is covered, inside it everything, and behind it the edit covers nothing.
    have hbefore : ((bytes.zipIdx.take e.start).drop cursor).filter
        (fun p => !(e :: es).any (covers · p.2)) = (bytes.zipIdx.take e.start).drop cursor := by
      refine List.filter_eq_self.mpr ?_
      intro p hp
      have hp' := index_of_mem_slice hp
      simp only [Bool.not_eq_true', List.any_eq_false, covers, Bool.and_eq_true, decide_eq_true_eq,
        List.forall_mem_cons]
      refine ⟨by omega, fun a ha => ?_⟩
      have := hlater a ha
      omega
    have hinside : ((bytes.zipIdx.take e.stop).drop e.start).filter
        (fun p => !(e :: es).any (covers · p.2)) = [] := by
      refine List.filter_eq_nil_iff.mpr ?_
      intro p hp
      simp [covers, index_of_mem_slice hp]
    have hbehind : (bytes.zipIdx.drop e.stop).filter (fun p => !(e :: es).any (covers · p.2)) =
        (bytes.zipIdx.drop e.stop).filter (fun p => !es.any (covers · p.2)) := by
      refine List.filter_congr ?_
      intro p hp
      obtain ⟨i, hi, rfl⟩ := List.mem_iff_getElem.mp hp
      have hnot : covers e (bytes.zipIdx.drop e.stop)[i].2 = false := by
        simp [covers]
      simp only [List.any_cons, hnot, Bool.false_or]
    rw [hbefore, hinside, hbehind, List.map_nil, List.nil_append, List.map_drop, List.map_take,
      List.zipIdx_map_fst]
    rfl

theorem apply_of_invalid {source : String} {edits : List Edit} {err : DeletionError}
    (h : validate (Text.bytes source).length edits = .error err) :
    apply source edits = .error err := by
  simp [apply, h, bind, Except.bind]

theorem apply_of_valid {source : String} {edits sorted : List Edit}
    (h : validate (Text.bytes source).length edits = .ok sorted) :
    apply source edits =
      match Text.ofBytes? (uncovered (Text.bytes source) edits) with
      | some text => .ok text
      | none => .error .invalidText := by
  have hkeep := (inOrder_of_validate h).keep_eq
  obtain ⟨rfl, -⟩ := (validate_eq_ok_iff _ edits sorted).mp h
  rw [← uncovered, uncovered_perm (List.mergeSort_perm edits Edit.le)] at hkeep
  simp only [apply, h, bind, Except.bind, hkeep]
  rfl

/-- Deletion succeeds exactly with edits that fit and do not overlap and leave a text, and then
leaves the bytes that lie in no edit. -/
theorem apply_eq_ok_iff {source text : String} {edits : List Edit} :
    apply source edits = .ok text ↔ (∀ e ∈ edits, e.Fits (Text.bytes source).length) ∧
      (edits.Pairwise fun a b => a.overlaps b = false) ∧
      Text.bytes text = uncovered (Text.bytes source) edits := by
  cases hv : validate (Text.bytes source).length edits with
  | error err =>
    simp only [apply_of_invalid hv, reduceCtorEq, false_iff, not_and]
    intro hfit hapart
    have hok := (validate_eq_ok_iff _ edits _).mpr ⟨rfl, hfit, hapart⟩
    rw [hv] at hok
    cases hok
  | ok sorted =>
    obtain ⟨-, hfit, hapart⟩ := (validate_eq_ok_iff _ edits _).mp hv
    rw [apply_of_valid hv, and_iff_right hfit, and_iff_right hapart, ← Text.ofBytes?_eq_some_iff]
    cases Text.ofBytes? (uncovered (Text.bytes source) edits) <;> simp

/-! ## Which fault is reported -/

/-- The first edit, in sorted order, that is empty or out of bounds. -/
def LeastMisfit (length : Nat) (edits : List Edit) (e : Edit) : Prop :=
  e ∈ edits ∧ ¬ e.Fits length ∧ ∀ a ∈ edits, ¬ a.Fits length → e.le a = true

/-- The fault of edits that cannot be deleted from a text: that of the least edit that does not fit,
else the first neighbours in sorted order that overlap, else that no text is left. -/
inductive Rejects (bytes : List UInt8) (edits : List Edit) : DeletionError → Prop
  | emptyRange {e : Edit} (h : LeastMisfit bytes.length edits e) (hempty : e.stop ≤ e.start) :
      Rejects bytes edits (.emptyRange e)
  | outOfBounds {e : Edit} (h : LeastMisfit bytes.length edits e) (hlt : e.start < e.stop) :
      Rejects bytes edits (.outOfBounds e bytes.length)
  | overlapping {before after : List Edit} {a b : Edit} (hfit : ∀ e ∈ edits, e.Fits bytes.length)
      (hperm : (before ++ a :: b :: after).Perm edits)
      (hsorted : (before ++ a :: b :: after).Pairwise fun a b => a.le b = true)
      (hfirst : (before ++ [a]).Pairwise fun a b => a.overlaps b = false)
      (hab : a.overlaps b = true) : Rejects bytes edits (.overlapping a b)
  | invalidText (hfit : ∀ e ∈ edits, e.Fits bytes.length)
      (hapart : edits.Pairwise fun a b => a.overlaps b = false)
      (hnone : ∀ text, Text.bytes text ≠ uncovered bytes edits) : Rejects bytes edits .invalidText

theorem mergeSort_eq_of_sorted {edits sorted : List Edit} (hperm : sorted.Perm edits)
    (hsorted : sorted.Pairwise fun a b => a.le b = true) : edits.mergeSort Edit.le = sorted := by
  refine List.Perm.eq_of_pairwise ?_ (pairwise_mergeSort_le edits) hsorted
    ((List.mergeSort_perm edits Edit.le).trans hperm.symm)
  intro a b _ _ hab hba
  exact Edit.le_antisymm a b hab hba

theorem findSome?_fault_iff {length : Nat} {edits : List Edit} {err : DeletionError} :
    (edits.mergeSort Edit.le).findSome? (fault length) = some err ↔
      ∃ e, LeastMisfit length edits e ∧ fault length e = some err := by
  have hmem : ∀ {e : Edit}, e ∈ edits.mergeSort Edit.le ↔ e ∈ edits :=
    (List.mergeSort_perm edits Edit.le).mem_iff
  have hleast : ∀ {err : DeletionError}, (edits.mergeSort Edit.le).findSome? (fault length) = some err →
      ∃ e, LeastMisfit length edits e ∧ fault length e = some err := by
    intro err h
    obtain ⟨before, e, after, hsplit, he, hbefore⟩ := List.findSome?_eq_some_iff.mp h
    refine ⟨e, ⟨hmem.mp (by simp [hsplit]), ?_, ?_⟩, he⟩
    · rw [← fault_eq_none_iff, he]
      simp
    · intro a ha hmisfit
      have hpair := pairwise_mergeSort_le edits
      rw [← hmem, hsplit] at ha
      rw [hsplit] at hpair
      -- The list is sorted and what comes before `e` fits, so a misfit is no smaller than `e`.
      rcases List.mem_append.mp ha with ha | ha
      · exact (hmisfit ((fault_eq_none_iff length a).mp (hbefore a ha))).elim
      · rcases List.mem_cons.mp ha with rfl | ha
        · simp [Edit.le_iff]
        · exact (List.pairwise_cons.mp (List.pairwise_append.mp hpair).2.1).1 a ha
  refine ⟨hleast, ?_⟩
  rintro ⟨e, ⟨hmemE, hmisfit, hle⟩, he⟩
  -- Two edits that are least among the misfits are the same edit.
  cases hfind : (edits.mergeSort Edit.le).findSome? (fault length) with
  | none =>
    have hfit := List.findSome?_eq_none_iff.mp hfind e (hmem.mpr hmemE)
    rw [hfit] at he
    cases he
  | some err' =>
    obtain ⟨e', ⟨hmem', hmisfit', hle'⟩, he'⟩ := hleast hfind
    obtain rfl := Edit.le_antisymm e e' (hle e' hmem' hmisfit') (hle' e hmemE hmisfit)
    rw [← he', he]

theorem firstOverlap_eq_some_iff {es : List Edit} {err : DeletionError} :
    firstOverlap es = some err ↔ ∃ before a b after, es = before ++ a :: b :: after ∧
      firstOverlap (before ++ [a]) = none ∧ b.start < a.stop ∧ err = .overlapping a b := by
  fun_induction firstOverlap es with
  | case1 a b es hlt =>
    constructor
    · rintro h
      cases h
      exact ⟨[], a, b, es, rfl, rfl, hlt, rfl⟩
    · rintro ⟨before, c, d, after, hsplit, hnone, hcd, rfl⟩
      -- A split further on would leave this overlap among the edits before it.
      rcases before with _ | ⟨x, _ | ⟨y, before⟩⟩ <;> cases hsplit
      · rfl
      · simp [firstOverlap, hlt] at hnone
      · simp [firstOverlap, hlt] at hnone
  | case2 a b es hge ih =>
    rw [ih]
    constructor
    · rintro ⟨before, c, d, after, hsplit, hnone, hcd, rfl⟩
      refine ⟨a :: before, c, d, after, by rw [hsplit]; rfl, ?_, hcd, rfl⟩
      cases before with
      | nil =>
        cases hsplit
        simp [firstOverlap, hge]
      | cons x before =>
        cases hsplit
        simpa [firstOverlap, hge] using hnone
    · rintro ⟨before, c, d, after, hsplit, hnone, hcd, rfl⟩
      rcases before with _ | ⟨x, before⟩
      · cases hsplit
        exact (hge hcd).elim
      · obtain ⟨rfl, hrest⟩ := List.cons.inj hsplit
        refine ⟨before, c, d, after, hrest, ?_, hcd, rfl⟩
        cases before with
        | nil => rfl
        | cons y before =>
          cases hrest
          simpa [firstOverlap, hge] using hnone
  | case3 es hshort =>
    simp only [reduceCtorEq, false_iff, not_exists, not_and]
    rintro before a b after rfl
    cases before with
    | nil => exact (hshort a b after rfl).elim
    | cons x before =>
      cases before with
      | nil => exact (hshort x a (b :: after) rfl).elim
      | cons y before => exact (hshort x y _ rfl).elim

theorem fault_of_misfit {length : Nat} {e : Edit} (h : ¬ e.Fits length) :
    fault length e = some (if e.stop ≤ e.start then .emptyRange e else .outOfBounds e length) := by
  unfold Edit.Fits at h
  unfold fault
  split
  · rfl
  · rw [if_pos (by omega)]

theorem validate_eq_error_iff {length : Nat} {edits : List Edit} {err : DeletionError} :
    validate length edits = .error err ↔
      (edits.mergeSort Edit.le).findSome? (fault length) = some err ∨
        (edits.mergeSort Edit.le).findSome? (fault length) = none ∧
          firstOverlap (edits.mergeSort Edit.le) = some err := by
  rw [← Option.or_eq_some_iff]
  unfold validate
  cases h : ((edits.mergeSort Edit.le).findSome? (fault length)).or
    (firstOverlap (edits.mergeSort Edit.le)) <;> simp [h]

theorem fits_of_findSome? {length : Nat} {edits : List Edit}
    (h : (edits.mergeSort Edit.le).findSome? (fault length) = none) : ∀ e ∈ edits, e.Fits length := by
  intro e he
  rw [← fault_eq_none_iff]
  exact List.findSome?_eq_none_iff.mp h e ((List.mergeSort_perm edits Edit.le).mem_iff.mpr he)

theorem Rejects.of_validate {bytes : List UInt8} {edits : List Edit} {err : DeletionError}
    (h : validate bytes.length edits = .error err) : Rejects bytes edits err := by
  rcases validate_eq_error_iff.mp h with h | ⟨hfit, h⟩
  · obtain ⟨e, hleast, he⟩ := findSome?_fault_iff.mp h
    rw [fault_of_misfit hleast.2.1, Option.some.injEq] at he
    subst he
    split
    · exact .emptyRange hleast ‹_›
    · exact .outOfBounds hleast (by omega)
  · obtain ⟨before, a, b, after, hsplit, hnone, hlt, rfl⟩ := firstOverlap_eq_some_iff.mp h
    have hfits := fits_of_findSome? hfit
    have hperm := List.mergeSort_perm edits Edit.le
    have hsorted := pairwise_mergeSort_le edits
    rw [hsplit] at hperm hsorted
    have hne : ∀ e ∈ before ++ a :: b :: after, e.start < e.stop :=
      fun e he => (hfits e (hperm.mem_iff.mp he)).1
    have hsub : (before ++ [a]).Sublist (before ++ a :: b :: after) := by simp
    rw [firstOverlap_eq_none_iff _ (hsorted.sublist hsub) fun e he => hne e (hsub.subset he)] at hnone
    refine .overlapping hfits hperm hsorted hnone ?_
    have hle := (List.pairwise_cons.mp (List.pairwise_append.mp hsorted).2.1).1 b List.mem_cons_self
    have hb := hne b (by simp)
    rw [Edit.le_iff] at hle
    simp [Edit.overlaps]
    omega

theorem Rejects.validate_eq {bytes : List UInt8} {edits : List Edit} {err : DeletionError}
    (h : Rejects bytes edits err) (hne : err ≠ .invalidText) :
    validate bytes.length edits = .error err := by
  rw [validate_eq_error_iff]
  cases h with
  | emptyRange hleast hempty =>
    left
    exact findSome?_fault_iff.mpr ⟨_, hleast, by rw [fault_of_misfit hleast.2.1, if_pos hempty]⟩
  | @outOfBounds e hleast hlt =>
    left
    refine findSome?_fault_iff.mpr ⟨e, hleast, ?_⟩
    rw [fault_of_misfit hleast.2.1, if_neg (by omega)]
  | @overlapping before after a b hfit hperm hsorted hfirst hab =>
    right
    have hsort := mergeSort_eq_of_sorted hperm hsorted
    have hfit' : ∀ e ∈ before ++ a :: b :: after, e.Fits bytes.length :=
      fun e he => hfit e (hperm.mem_iff.mp he)
    have hsub : (before ++ [a]).Sublist (before ++ a :: b :: after) := by simp
    rw [hsort, List.findSome?_eq_none_iff, firstOverlap_eq_some_iff]
    refine ⟨fun e he => (fault_eq_none_iff _ e).mpr (hfit' e he), before, a, b, after, rfl, ?_, ?_, rfl⟩
    · exact (firstOverlap_eq_none_iff _ (hsorted.sublist hsub)
        fun e he => (hfit' e (hsub.subset he)).1).mpr hfirst
    · simp [Edit.overlaps] at hab
      exact hab.2
  | invalidText => exact (hne rfl).elim

theorem apply_eq_error_iff {source : String} {edits : List Edit} {err : DeletionError} :
    apply source edits = .error err ↔ Rejects (Text.bytes source) edits err := by
  cases hv : validate (Text.bytes source).length edits with
  | error err' =>
    rw [apply_of_invalid hv, Except.error.injEq]
    constructor
    · rintro rfl
      exact .of_validate hv
    · intro h
      by_cases hne : err = .invalidText
      · subst hne
        cases h with
        | invalidText hfit hapart =>
          rw [(validate_eq_ok_iff _ edits _).mpr ⟨rfl, hfit, hapart⟩] at hv
          cases hv
      · rw [h.validate_eq hne, Except.error.injEq] at hv
        exact hv.symm
  | ok sorted =>
    obtain ⟨-, hfit, hapart⟩ := (validate_eq_ok_iff _ edits _).mp hv
    rw [apply_of_valid hv]
    have hnone : Text.ofBytes? (uncovered (Text.bytes source) edits) = none ↔
        ∀ text, Text.bytes text ≠ uncovered (Text.bytes source) edits := by
      simp [Option.eq_none_iff_forall_ne_some, Text.ofBytes?_eq_some_iff]
    constructor
    · intro h
      split at h
      · cases h
      · cases h
        exact .invalidText hfit hapart (hnone.mp ‹_›)
    · intro h
      by_cases hne : err = .invalidText
      · subst hne
        cases h with
        | invalidText _ _ h => rw [hnone.mpr h]
      · rw [h.validate_eq hne] at hv
        cases hv

theorem apply_perm {source : String} {edits edits' : List Edit} (h : edits'.Perm edits) :
    apply source edits' = apply source edits := by
  have hsort : edits'.mergeSort Edit.le = edits.mergeSort Edit.le :=
    mergeSort_eq_of_sorted ((List.mergeSort_perm edits Edit.le).trans h.symm)
      (pairwise_mergeSort_le edits)
  simp only [apply, validate, hsort]

/-- Deletion accepts exactly the edits that fit, do not overlap and leave a text, and deletes exactly
the bytes that they cover. Other edits are rejected for the first fault in sorted order, so the order
of the list never matters. Whatever is copied is a range of the text, and the bytes that go are no more
than there are. -/
theorem deletes_exactly_covered (source : String) (edits : List Edit) :
    (∀ text, apply source edits = .ok text ↔ (∀ e ∈ edits, e.Fits (Text.bytes source).length) ∧
      (edits.Pairwise fun a b => a.overlaps b = false) ∧
      Text.bytes text = uncovered (Text.bytes source) edits) ∧
    (∀ err, apply source edits = .error err ↔ Rejects (Text.bytes source) edits err) ∧
    (∀ edits', edits'.Perm edits → apply source edits' = apply source edits) ∧
    ∀ sorted, validate (Text.bytes source).length edits = .ok sorted →
      keep? (Text.bytes source) 0 sorted = some (keep (Text.bytes source) 0 sorted) ∧
      removed sorted ≤ (Text.bytes source).length ∧
      (keep (Text.bytes source) 0 sorted).length = (Text.bytes source).length - removed sorted := by
  refine ⟨fun text => apply_eq_ok_iff, fun err => apply_eq_error_iff, fun edits' => apply_perm, ?_⟩
  intro sorted h
  have horder := inOrder_of_validate h
  have hlength := horder.length_keep
  exact ⟨horder.keep?_eq, by omega, by omega⟩

end Deletion

end ConvSweep
