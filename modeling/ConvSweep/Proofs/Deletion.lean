import Mathlib.Data.List.Nodup
import ConvSweep.Deletion

/-! # What deletion accepts and what it leaves

Neighbours in sorted order tell whether any two edits overlap. A text that is cut into chunks
loses exactly its dropped chunks.
-/

namespace ConvSweep

namespace Edit

/-! ## The order of edits -/

theorem le_iff (a b : Edit) :
    a.le b = true ↔ a.start < b.start ∨ (a.start = b.start ∧ a.stop ≤ b.stop) := by
  simp [le]

theorem le_trans (a b c : Edit) (hab : a.le b = true) (hbc : b.le c = true) : a.le c = true := by
  rw [le_iff] at *
  omega

theorem le_total (a b : Edit) : (a.le b || b.le a) = true := by
  rw [Bool.or_eq_true, le_iff, le_iff]
  omega

theorem le_antisymm (a b : Edit) (hab : a.le b = true) (hba : b.le a = true) : a = b := by
  rw [le_iff] at *
  cases a
  cases b
  simp only [Edit.mk.injEq] at *
  omega

theorem overlaps_eq_false_iff (a b : Edit) :
    a.overlaps b = false ↔ b.stop ≤ a.start ∨ a.stop ≤ b.start := by
  rw [overlaps, Bool.and_eq_false_iff, decide_eq_false_iff_not, decide_eq_false_iff_not]
  omega

theorem overlaps_symm {a b : Edit} (h : a.overlaps b = false) : b.overlaps a = false := by
  rw [overlaps_eq_false_iff] at *
  omega

/-- The range is not empty and ends inside a text of `length` bytes. -/
def Fits (length : Nat) (e : Edit) : Prop := e.start < e.stop ∧ e.stop ≤ length

end Edit

namespace Deletion

open Edit

/-! ## Validation -/

theorem fault_eq_none_iff (length : Nat) (e : Edit) : fault length e = none ↔ e.Fits length := by
  unfold fault Edit.Fits
  split
  · simp; omega
  · split <;> simp <;> omega

theorem firstOverlap_eq_none_iff (es : List Edit) (hs : es.Pairwise fun a b => a.le b = true)
    (hne : ∀ e ∈ es, e.start < e.stop) :
    firstOverlap es = none ↔ es.Pairwise fun a b => a.overlaps b = false := by
  fun_induction firstOverlap es with
  | case1 a b es hlt =>
    simp only [reduceCtorEq, false_iff]
    intro h
    have hab := (List.pairwise_cons.mp h).1 b List.mem_cons_self
    have hle := (List.pairwise_cons.mp hs).1 b List.mem_cons_self
    have hb := hne b (by simp)
    rw [overlaps_eq_false_iff] at hab
    rw [le_iff] at hle
    omega
  | case2 a b es hge ih =>
    have ht := List.pairwise_cons.mp hs
    rw [ih ht.2 fun e he => hne e (List.mem_cons_of_mem _ he)]
    constructor
    · intro h
      refine List.pairwise_cons.mpr ⟨?_, h⟩
      intro e he
      -- `a` stops before `b` starts, and nothing that follows starts before `b`.
      have hbe : b.start ≤ e.start := by
        rcases List.mem_cons.mp he with rfl | he
        · omega
        · have := (List.pairwise_cons.mp ht.2).1 e he
          rw [le_iff] at this
          omega
      rw [overlaps_eq_false_iff]
      omega
    · intro h
      exact (List.pairwise_cons.mp h).2
  | case3 es hshort =>
    simp only [true_iff]
    match es, hshort with
    | [], _ => exact .nil
    | [a], _ => exact List.pairwise_singleton _ a
    | a :: b :: es, hshort => exact (hshort a b es rfl).elim

theorem pairwise_mergeSort_le (edits : List Edit) :
    (edits.mergeSort Edit.le).Pairwise fun a b => a.le b = true :=
  List.pairwise_mergeSort le_trans le_total edits

theorem validate_eq_ok_iff (length : Nat) (edits sorted : List Edit) :
    validate length edits = .ok sorted ↔ sorted = edits.mergeSort Edit.le ∧
      (∀ e ∈ edits, e.Fits length) ∧ edits.Pairwise fun a b => a.overlaps b = false := by
  have hperm := List.mergeSort_perm edits Edit.le
  have hfit : (edits.mergeSort Edit.le).findSome? (fault length) = none ↔
      ∀ e ∈ edits, e.Fits length := by
    rw [List.findSome?_eq_none_iff]
    simp only [fault_eq_none_iff, hperm.mem_iff]
  unfold validate
  simp only
  by_cases hall : ∀ e ∈ edits, e.Fits length
  · have hne : ∀ e ∈ edits.mergeSort Edit.le, e.start < e.stop :=
      fun e he => (hall e (hperm.mem_iff.mp he)).1
    have hover := firstOverlap_eq_none_iff _ (pairwise_mergeSort_le edits) hne
    rw [hperm.pairwise_iff overlaps_symm] at hover
    rw [hfit.mpr hall, Option.none_or, ← hover]
    cases firstOverlap (edits.mergeSort Edit.le) with
    | none =>
      simp only [Except.ok.injEq, and_true]
      exact ⟨fun h => ⟨h.symm, hall⟩, fun h => h.1.symm⟩
    | some e => simp
  · have hbad : (edits.mergeSort Edit.le).findSome? (fault length) ≠ none := by rwa [ne_eq, hfit]
    obtain ⟨e, he⟩ := Option.ne_none_iff_exists'.mp hbad
    rw [he, Option.some_or]
    simp [hall]

end Deletion

/-! ## Chunks -/

/-- A part of a text that stays or goes. -/
inductive Chunk
  | keep (s : String)
  | drop (s : String)
  deriving DecidableEq, Repr

namespace Chunk

/-- The text that the chunks cut up. -/
def whole : List Chunk → String
  | [] => ""
  | keep s :: cs | drop s :: cs => s ++ whole cs

/-- What is left of it. -/
def kept : List Chunk → String
  | [] => ""
  | keep s :: cs => s ++ kept cs
  | drop _ :: cs => kept cs

/-- The ranges that go, where the first chunk begins at `start`. -/
def edits (start : Nat) : List Chunk → List Edit
  | [] => []
  | keep s :: cs => edits (start + s.utf8ByteSize) cs
  | drop s :: cs => ⟨start, start + s.utf8ByteSize⟩ :: edits (start + s.utf8ByteSize) cs

/-- Nothing empty goes. -/
def Proper (cs : List Chunk) : Prop := ∀ s, drop s ∈ cs → s ≠ ""

theorem whole_append (cs ds : List Chunk) : whole (cs ++ ds) = whole cs ++ whole ds := by
  fun_induction whole cs <;> simp_all [whole, String.append_assoc]

theorem kept_append (cs ds : List Chunk) : kept (cs ++ ds) = kept cs ++ kept ds := by
  fun_induction kept cs <;> simp_all [kept, String.append_assoc]

theorem edits_append (start : Nat) (cs ds : List Chunk) :
    edits start (cs ++ ds) = edits start cs ++ edits (start + (whole cs).utf8ByteSize) ds := by
  fun_induction edits start cs <;> simp_all [edits, whole, Nat.add_assoc]

theorem Proper.tail {c : Chunk} {cs : List Chunk} (h : Proper (c :: cs)) : Proper cs :=
  fun s hs => h s (List.mem_cons_of_mem _ hs)

theorem edits_in_order {cs : List Chunk} (hcs : Proper cs) (start : Nat) :
    (∀ e ∈ edits start cs, start ≤ e.start ∧ e.Fits (start + (whole cs).utf8ByteSize)) ∧
      (edits start cs).Pairwise fun a b => a.stop ≤ b.start := by
  fun_induction edits start cs with
  | case1 start => simp
  | case2 start s cs ih =>
    obtain ⟨hin, hpw⟩ := ih hcs.tail
    refine ⟨?_, hpw⟩
    intro e he
    have := hin e he
    simp only [Edit.Fits, whole, String.utf8ByteSize_append] at *
    omega
  | case3 start s cs ih =>
    obtain ⟨hin, hpw⟩ := ih hcs.tail
    have hs : s.utf8ByteSize ≠ 0 := by
      rw [ne_eq, String.utf8ByteSize_eq_zero_iff]
      exact hcs s List.mem_cons_self
    refine ⟨?_, List.pairwise_cons.mpr ⟨fun e he => (hin e he).1, hpw⟩⟩
    intro e he
    rcases List.mem_cons.mp he with rfl | he
    · simp only [Edit.Fits, whole, String.utf8ByteSize_append]
      omega
    · have := hin e he
      simp only [Edit.Fits, whole, String.utf8ByteSize_append] at *
      omega

theorem keep_edits (before : List UInt8) (cs : List Chunk) (cursor : Nat)
    (hc : cursor ≤ before.length) :
    Deletion.keep (before ++ Text.bytes (whole cs)) cursor (edits before.length cs) =
      before.drop cursor ++ Text.bytes (kept cs) := by
  induction cs generalizing before cursor with
  | nil => simp [edits, Deletion.keep, whole, kept, List.drop_append_of_le_length hc]
  | cons c cs ih =>
    have hlen : ∀ s : String, (before ++ Text.bytes s).length = before.length + s.utf8ByteSize := by
      intro s
      rw [List.length_append, Text.length_bytes]
    cases c with
    | keep s =>
      have := ih (before ++ Text.bytes s) cursor (by rw [hlen]; omega)
      rw [hlen] at this
      simp only [whole, kept, edits, Text.bytes_append, ← List.append_assoc, this]
      rw [List.drop_append_of_le_length hc]
    | drop s =>
      have := ih (before ++ Text.bytes s) (before.length + s.utf8ByteSize) (Nat.le_of_eq (hlen s).symm)
      rw [hlen] at this
      simp only [whole, kept, edits, Deletion.keep, Text.bytes_append, ← List.append_assoc, this]
      rw [← hlen, List.drop_length, List.append_nil, List.append_assoc before, List.take_left]

theorem apply_edits {cs : List Chunk} (hcs : Proper cs) {es : List Edit}
    (hes : es.Perm (edits 0 cs)) : Deletion.apply (whole cs) es = .ok (kept cs) := by
  obtain ⟨hin, hpw⟩ := edits_in_order hcs 0
  have hsorted : (edits 0 cs).Pairwise fun a b => a.le b = true := by
    refine (List.Pairwise.and_mem.mp hpw).imp ?_
    rintro a b ⟨ha, -, hab⟩
    have := (hin a ha).2.1
    rw [Edit.le_iff]
    omega
  have hmerge : es.mergeSort Edit.le = edits 0 cs := by
    refine List.Perm.eq_of_pairwise ?_ (Deletion.pairwise_mergeSort_le es) hsorted
      ((List.mergeSort_perm es Edit.le).trans hes)
    intro a b _ _ hab hba
    exact Edit.le_antisymm a b hab hba
  have hvalid : Deletion.validate (Text.bytes (whole cs)).length es = .ok (edits 0 cs) := by
    rw [Deletion.validate_eq_ok_iff]
    refine ⟨hmerge.symm, ?_, ?_⟩
    · intro e he
      have := (hin e (hes.mem_iff.mp he)).2
      rwa [Nat.zero_add, ← Text.length_bytes] at this
    · rw [hes.pairwise_iff Edit.overlaps_symm]
      refine hpw.imp ?_
      intro a b hab
      rw [Edit.overlaps_eq_false_iff]
      omega
  have hkeep := keep_edits [] cs 0 (Nat.zero_le _)
  simp only [List.nil_append, List.length_nil, List.drop_nil] at hkeep
  simp only [Deletion.apply, hvalid, bind, Except.bind, hkeep, Text.ofBytes?_bytes]
  rfl

end Chunk

end ConvSweep
