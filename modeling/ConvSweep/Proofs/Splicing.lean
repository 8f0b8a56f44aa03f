import ConvSweep.Proofs.DeletionOutcome

/-! # Deleting from the end

Cutting the edits out one at a time, the last first, leaves what copying forward leaves. Every cut
changes only what lies behind the edits that are still to come, so their offsets stay right.
-/

namespace ConvSweep.Deletion

/-- Cuts a range out of the bytes, if they have it. -/
def cut? (bytes : List UInt8) (e : Edit) : Option (List UInt8) :=
  if e.start ≤ e.stop ∧ e.stop ≤ bytes.length then some (bytes.take e.start ++ bytes.drop e.stop)
  else none

/-- Cuts the edits out of the bytes one at a time, in decreasing order of start. -/
def cutFromEnd? (bytes : List UInt8) (edits : List Edit) : Option (List UInt8) :=
  (edits.mergeSort fun a b => b.start ≤ a.start).foldlM cut? bytes

/-! ## One cut -/

theorem cut?_append {bytes rest : List UInt8} {e : Edit} (h : e.Fits bytes.length) :
    cut? (bytes.take e.stop ++ rest) e = some (bytes.take e.start ++ rest) := by
  obtain ⟨hlt, hstop⟩ := h
  have hlen : (bytes.take e.stop).length = e.stop := List.length_take_of_le hstop
  have hin : e.start ≤ e.stop ∧ e.stop ≤ (bytes.take e.stop ++ rest).length := by
    rw [List.length_append, hlen]
    omega
  have htake : (bytes.take e.stop ++ rest).take e.start = bytes.take e.start := by
    rw [List.take_append_of_le_length (by omega), List.take_take, Nat.min_eq_left (Nat.le_of_lt hlt)]
  have hdrop : (bytes.take e.stop ++ rest).drop e.stop = rest := List.drop_left' hlen
  rw [cut?, if_pos hin, htake, hdrop]

/-! ## All cuts -/

theorem InOrder.foldrM_cut? {bytes : List UInt8} {cursor : Nat} {es : List Edit}
    (h : InOrder bytes.length cursor es) :
    es.foldrM (fun e bs => cut? bs e) bytes = some (bytes.take cursor ++ keep bytes cursor es) := by
  induction es generalizing cursor with
  | nil => simp [keep]
  | cons e es ih =>
    -- The edits behind `e` are cut out already, and nothing up to its end has moved.
    obtain ⟨hle, hfit⟩ := h.fits e List.mem_cons_self
    have hbefore : bytes.take e.start = bytes.take cursor ++ (bytes.take e.start).drop cursor := by
      conv => lhs; rw [← List.take_append_drop cursor (bytes.take e.start), List.take_take,
        Nat.min_eq_left hle]
    rw [List.foldrM_cons, ih h.tail, Option.bind_eq_bind, Option.bind_some, cut?_append hfit, keep,
      ← List.append_assoc, ← hbefore]

theorem InOrder.mergeSort_eq_reverse {length cursor : Nat} {sorted edits : List Edit}
    (h : InOrder length cursor sorted) (hperm : sorted.Perm edits) :
    (edits.mergeSort fun a b => b.start ≤ a.start) = sorted.reverse := by
  have hstarts : sorted.Pairwise fun a b => a.start < b.start := by
    refine h.apart.imp_of_mem ?_
    intro a b ha _ hab
    have := (h.fits a ha).2.1
    omega
  have htrans : ∀ a b c : Edit, decide (b.start ≤ a.start) = true →
      decide (c.start ≤ b.start) = true → decide (c.start ≤ a.start) = true := by
    simpa using fun a b c : Edit => fun hba hcb => Nat.le_trans hcb hba
  have htotal : ∀ a b : Edit, (decide (b.start ≤ a.start) || decide (a.start ≤ b.start)) = true := by
    simpa using fun a b : Edit => Nat.le_total b.start a.start
  have hsorted := List.pairwise_mergeSort htrans htotal edits
  simp only [decide_eq_true_eq] at hsorted
  refine List.Perm.eq_of_pairwise ?_ hsorted
    (List.pairwise_reverse.mpr (hstarts.imp Nat.le_of_lt)) ?_
  · intro a b ha hb hba hab
    have ha' : a ∈ sorted := hperm.mem_iff.mpr ((List.mergeSort_perm edits _).mem_iff.mp ha)
    have hnodup : (sorted.map (·.start)).Nodup := List.pairwise_map.mpr (hstarts.imp Nat.ne_of_lt)
    exact List.inj_on_of_nodup_map hnodup ha' (List.mem_reverse.mp hb) (Nat.le_antisymm hab hba)
  · exact (List.mergeSort_perm edits _).trans (hperm.symm.trans sorted.reverse_perm.symm)

/-- Copying forward what no accepted edit deletes gives the bytes that are left when the edits are cut
out one at a time from the end, where every cut finds its range. What is then checked to be a text are
these bytes. -/
theorem forward_copy_cuts_from_end (source : String) (edits sorted : List Edit)
    (h : validate (Text.bytes source).length edits = .ok sorted) :
    cutFromEnd? (Text.bytes source) edits = some (keep (Text.bytes source) 0 sorted) ∧
    ∀ text, apply source edits = .ok text ↔
      cutFromEnd? (Text.bytes source) edits = some (Text.bytes text) := by
  have horder := inOrder_of_validate h
  obtain ⟨rfl, hfit, hapart⟩ := (validate_eq_ok_iff _ edits sorted).mp h
  have hcut : cutFromEnd? (Text.bytes source) edits =
      some (keep (Text.bytes source) 0 (edits.mergeSort Edit.le)) := by
    rw [cutFromEnd?, horder.mergeSort_eq_reverse (List.mergeSort_perm edits Edit.le),
      List.foldlM_reverse, horder.foldrM_cut?, List.take_zero, List.nil_append]
  refine ⟨hcut, fun text => ?_⟩
  rw [apply_eq_ok_iff, and_iff_right hfit, and_iff_right hapart, hcut, Option.some.injEq,
    horder.keep_eq, ← uncovered, uncovered_perm (List.mergeSort_perm edits Edit.le), eq_comm]

/-- The four cuts that take both conversions out of a line, not given in order. -/
theorem twoConversions_cut_from_end :
    let source := "x := float64(f1 + f2) * int(y)"
    let edits : List Edit := [⟨24, 28⟩, ⟨29, 30⟩, ⟨5, 13⟩, ⟨20, 21⟩]
    validate (Text.bytes source).length edits = .ok [⟨5, 13⟩, ⟨20, 21⟩, ⟨24, 28⟩, ⟨29, 30⟩] ∧
      cutFromEnd? (Text.bytes source) edits = some (Text.bytes "x := f1 + f2 * y") := by
  intro source edits
  have hvalid : validate (Text.bytes source).length edits =
      .ok [⟨5, 13⟩, ⟨20, 21⟩, ⟨24, 28⟩, ⟨29, 30⟩] := by
    refine (validate_eq_ok_iff _ _ _).mpr ⟨(mergeSort_eq_of_sorted ?_ ?_).symm, ?_, ?_⟩
    · decide
    · decide
    · unfold Edit.Fits
      decide
    · decide
  refine ⟨hvalid, ?_⟩
  rw [(forward_copy_cuts_from_end source edits _ hvalid).1]
  decide

end ConvSweep.Deletion
