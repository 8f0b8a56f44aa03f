import Mathlib.Data.List.DropRight
import Mathlib.Data.Prod.Lex
import ConvSweep.Text.LineIndex

/-! # Where an offset falls

The search by halves finds the last line that starts at or before an offset, so the line counts the
newlines before the offset, and the column what lies between. Newlines and carriage returns are
characters of one byte, so lines are cut where characters end.
-/

namespace ConvSweep

/-! ## Cutting a text at a byte -/

namespace Text

theorem bytes_injective {s t : String} (h : bytes s = bytes t) : s = t :=
  Option.some.inj (by rw [← ofBytes?_bytes s, h, ofBytes?_bytes])

theorem utf8EncodeChar_eq_singleton_of_mem {c : Char} {b : UInt8} (hb : b.toNat < 128)
    (h : b ∈ String.utf8EncodeChar c) : String.utf8EncodeChar c = [b] := by
  have hlead : ∀ n, 128 ≤ n → n < 256 → b ≠ UInt8.ofNat n := by
    rintro n hn hn' rfl
    rw [UInt8.toNat_ofNat', Nat.mod_eq_of_lt hn'] at hb
    omega
  simp only [String.utf8EncodeChar] at h
  split at h
  · rename_i hsmall
    rw [List.mem_singleton.mp h, String.utf8EncodeChar, if_pos hsmall]
  · -- Every byte of a longer character has its highest bit set.
    split at h
    · simp only [List.mem_cons, List.not_mem_nil, or_false] at h
      rcases h with h | h <;> exact (hlead _ (by omega) (by omega) h).elim
    · split at h
      · simp only [List.mem_cons, List.not_mem_nil, or_false] at h
        rcases h with h | h | h <;> exact (hlead _ (by omega) (by omega) h).elim
      · simp only [List.mem_cons, List.not_mem_nil, or_false] at h
        rcases h with h | h | h | h <;> exact (hlead _ (by omega) (by omega) h).elim

theorem exists_texts_around {s : String} {before after : List UInt8} {b : UInt8}
    (hb : b.toNat < 128) (h : bytes s = before ++ b :: after) :
    ∃ s₁ s₂, bytes s₁ = before ∧ bytes s₂ = after := by
  suffices hchars : ∀ (cs : List Char) (before : List UInt8),
      cs.flatMap String.utf8EncodeChar = before ++ b :: after →
      ∃ cs₁ cs₂ : List Char, cs₁.flatMap String.utf8EncodeChar = before ∧
        cs₂.flatMap String.utf8EncodeChar = after by
    rw [bytes_eq_flatMap] at h
    obtain ⟨cs₁, cs₂, h₁, h₂⟩ := hchars s.toList before h
    exact ⟨String.ofList cs₁, String.ofList cs₂, by rw [bytes_ofList, h₁], by rw [bytes_ofList, h₂]⟩
  intro cs
  induction cs with
  | nil => simp
  | cons c cs ih =>
    intro before h
    rw [List.flatMap_cons, List.append_eq_append_iff] at h
    rcases h with ⟨more, rfl, hcs⟩ | ⟨more, hc, hafter⟩
    · obtain ⟨cs₁, cs₂, h₁, h₂⟩ := ih more hcs
      exact ⟨c :: cs₁, cs₂, by rw [List.flatMap_cons, h₁], h₂⟩
    · -- The byte is one of the first character, so it is that character.
      cases more with
      | nil =>
        obtain ⟨cs₁, cs₂, h₁, h₂⟩ := ih [] (by simpa using hafter.symm)
        refine ⟨[c], cs₂, ?_, h₂⟩
        simpa using hc
      | cons d more =>
        obtain ⟨rfl, rfl⟩ : b = d ∧ after = more ++ cs.flatMap String.utf8EncodeChar := by
          simpa using hafter
        have hsingle := utf8EncodeChar_eq_singleton_of_mem hb (by rw [hc]; simp)
        rw [hc, List.append_eq_singleton_iff] at hsingle
        rcases hsingle with ⟨rfl, hmore⟩ | ⟨-, hmore⟩
        · obtain rfl : more = [] := by simpa using hmore
          exact ⟨[], cs, rfl, rfl⟩
        · cases hmore

end Text

namespace LineIndex

open Text

/-! ## The search by halves -/

/-- The numbers before an index are at most `x`, those from it on are greater. -/
structure Splits (xs : List Nat) (x n : Nat) : Prop where
  bound : n ≤ xs.length
  below : ∀ i (h : i < xs.length), i < n → xs[i] ≤ x
  above : ∀ i (h : i < xs.length), n ≤ i → x < xs[i]

/-- What has to hold of the answer of a search. -/
def Lookup.Answers (xs : List Nat) (x : Nat) : Lookup → Prop
  | .found i => Splits xs x (i + 1)
  | .missing i => Splits xs x i

theorem answers_bisect {xs : List Nat} {x lo hi : Nat} {h : hi ≤ xs.length}
    (hxs : xs.Pairwise (· < ·)) (hle : lo ≤ hi)
    (hbelow : ∀ i (h : i < xs.length), i < lo → xs[i] ≤ x)
    (habove : ∀ i (h : i < xs.length), hi ≤ i → x < xs[i]) :
    (bisect xs x lo hi h).Answers xs x := by
  rw [List.pairwise_iff_getElem] at hxs
  fun_induction bisect xs x lo hi h with
  | case1 lo hi h hlt mid hmid heq =>
    refine ⟨by omega, fun i hi' hi => ?_, fun i hi' hi => ?_⟩
    · rcases Nat.lt_or_eq_of_le (Nat.le_of_lt_succ hi) with hi | rfl
      · exact Nat.le_of_lt (heq ▸ hxs i mid hi' hmid hi)
      · exact Nat.le_of_eq heq
    · exact heq ▸ hxs mid i hmid hi' hi
  | case2 lo hi h hlt mid hmid hne hless ih =>
    refine ih (by omega) (fun i hi' hi => ?_) habove
    rcases Nat.lt_or_eq_of_le (Nat.le_of_lt_succ hi) with hi | rfl
    · exact Nat.le_of_lt (Nat.lt_trans (hxs i mid hi' hmid hi) hless)
    · exact Nat.le_of_lt hless
  | case3 lo hi h hlt mid hmid hne hnless ih =>
    refine ih (by omega) hbelow (fun i hi' hi => ?_)
    rcases Nat.lt_or_eq_of_le hi with hi | rfl
    · exact Nat.lt_trans (by omega) (hxs mid i hmid hi' hi)
    · omega
  | case4 lo hi h hge =>
    obtain rfl : lo = hi := by omega
    exact ⟨h, hbelow, habove⟩

theorem splits_line {index : LineIndex} (hstarts : index.starts.Pairwise (· < ·)) (offset : Nat) :
    Splits index.starts offset (index.line offset) := by
  have h := answers_bisect (x := offset) (h := Nat.le_refl _) hstarts (Nat.zero_le _) (by simp)
    (fun i hi hle => absurd hi (Nat.not_lt.mpr hle))
  unfold line
  cases hb : bisect index.starts offset 0 index.starts.length (Nat.le_refl _) with
  | found i => simpa [hb, Lookup.Answers] using h
  | missing i => simpa [hb, Lookup.Answers] using h

theorem Splits.eq_countP {xs : List Nat} {x n : Nat} (h : Splits xs x n) :
    n = xs.countP (· ≤ x) := by
  have hsplit : xs.countP (· ≤ x) = (xs.take n).countP (· ≤ x) + (xs.drop n).countP (· ≤ x) := by
    rw [← List.countP_append, List.take_append_drop]
  have htake : (xs.take n).countP (· ≤ x) = n := by
    have hlen := List.length_take_of_le h.bound
    refine (List.countP_eq_length.mpr ?_).trans hlen
    intro y hy
    obtain ⟨i, hi, rfl⟩ := List.mem_iff_getElem.mp hy
    rw [List.length_take] at hi
    simpa using h.below i (by omega) (by omega)
  have hdrop : (xs.drop n).countP (· ≤ x) = 0 := by
    refine List.countP_eq_zero.mpr ?_
    intro y hy
    obtain ⟨i, hi, rfl⟩ := List.mem_iff_getElem.mp hy
    rw [List.length_drop] at hi
    simpa using h.above (n + i) (by omega) (by omega)
  omega

/-! ## Where lines start -/

theorem pairwise_startsAfter (offset : Nat) (bs : List UInt8) :
    (startsAfter offset bs).Pairwise (· < ·) ∧ ∀ start ∈ startsAfter offset bs, offset < start := by
  induction bs generalizing offset with
  | nil => simp [startsAfter]
  | cons b bs ih =>
    obtain ⟨hpair, hlt⟩ := ih (offset + 1)
    unfold startsAfter
    split
    · refine ⟨List.pairwise_cons.mpr ⟨hlt, hpair⟩, ?_⟩
      intro start hstart
      rcases List.mem_cons.mp hstart with rfl | hstart
      · omega
      · have := hlt start hstart
        omega
    · refine ⟨hpair, fun start hstart => ?_⟩
      have := hlt start hstart
      omega

theorem pairwise_starts (source : String) : (ofText source).starts.Pairwise (· < ·) := by
  obtain ⟨hpair, hlt⟩ := pairwise_startsAfter 0 (bytes source)
  exact List.pairwise_cons.mpr ⟨hlt, hpair⟩

theorem countP_startsAfter (offset start : Nat) (bs : List UInt8) :
    (startsAfter start bs).countP (· ≤ offset) = (bs.take (offset - start)).count newline := by
  induction bs generalizing start with
  | nil => simp [startsAfter]
  | cons b bs ih =>
    by_cases hlt : start < offset
    · obtain ⟨n, rfl⟩ := Nat.exists_eq_add_of_lt hlt
      have hrest := ih (start + 1)
      have hstep : start + n + 1 - start = n + 1 := by omega
      have hstep' : start + n + 1 - (start + 1) = n := by omega
      rw [hstep'] at hrest
      rw [hstep, List.take_succ_cons, List.count_cons, ← hrest, startsAfter]
      split
      · rename_i hb
        simp [hb]
      · rename_i hb
        simp [hb]
    · rw [Nat.sub_eq_zero_of_le (by omega), List.take_zero, List.count_nil, List.countP_eq_zero]
      intro first hfirst
      have := (pairwise_startsAfter start (b :: bs)).2 first hfirst
      simp
      omega

theorem getElem?_startsAfter {offset i start : Nat} {bs : List UInt8}
    (h : (startsAfter offset bs)[i]? = some start) :
    ∃ before after, bs = before ++ newline :: after ∧ before.count newline = i ∧
      start = offset + before.length + 1 := by
  induction bs generalizing offset i with
  | nil => simp [startsAfter] at h
  | cons b bs ih =>
    unfold startsAfter at h
    split at h
    · rename_i hb
      cases i with
      | zero =>
        obtain rfl : offset + 1 = start := by simpa using h
        exact ⟨[], bs, by rw [hb]; rfl, rfl, rfl⟩
      | succ i =>
        obtain ⟨before, after, rfl, hcount, rfl⟩ := ih (by simpa using h)
        exact ⟨b :: before, after, rfl, by simp [hb, hcount], by rw [List.length_cons]; omega⟩
    · rename_i hb
      obtain ⟨before, after, rfl, hcount, rfl⟩ := ih h
      exact ⟨b :: before, after, rfl, by simp [hb, hcount], by rw [List.length_cons]; omega⟩

/-- The offsets whose column is a 64-bit number: all of them, but the last only behind a newline. -/
def HasColumn (source : String) (offset : Nat) : Prop :=
  offset < UInt64.size ∧ (offset + 1 < UInt64.size ∨ newline ∈ (bytes source).take offset)

instance (source : String) (offset : Nat) : Decidable (HasColumn source offset) :=
  inferInstanceAs (Decidable (_ ∧ _))

/-- The difference of two numbers, if the second is not the greater one. -/
def minus? (a b : Nat) : Option Nat := if b ≤ a then some (a - b) else none

/-- The sum of two numbers, if it is a 64-bit number. -/
def plus? (a b : Nat) : Option Nat := if a + b < UInt64.size then some (a + b) else none

/-- `lineCol`, where every index has to be one of the list and every difference and sum has to exist. -/
def lineCol? (index : LineIndex) (offset : Nat) : Option (Nat × Nat) := do
  let line := index.line offset
  let start ← index.starts[← minus? line 1]?
  return (line, ← plus? (← minus? offset start) 1)

theorem line_eq (source : String) (offset : Nat) :
    (ofText source).line offset = 1 + ((bytes source).take offset).count newline := by
  rw [(splits_line (pairwise_starts source) offset).eq_countP, ofText, List.countP_cons,
    countP_startsAfter]
  simp
  omega

theorem exists_start (source : String) (offset : Nat) :
    ∃ start, (ofText source).lineStart ((ofText source).line offset) = some start ∧ start ≤ offset ∧
      (0 < start ↔ newline ∈ (bytes source).take offset) ∧
      (ofText source).lineCol offset = ((ofText source).line offset, column start offset) ∧
      (ofText source).lineCol? offset =
        (plus? (offset - start) 1).map ((ofText source).line offset, ·) := by
  have hsplit := splits_line (pairwise_starts source) offset
  have hline := line_eq source offset
  obtain ⟨i, hi⟩ : ∃ i, (ofText source).line offset = i + 1 := ⟨_, hline.trans (Nat.add_comm 1 _)⟩
  have hlt : i < (ofText source).starts.length := by
    have := hsplit.bound
    omega
  have hstart : (ofText source).starts[i]? = some (ofText source).starts[i] :=
    List.getElem?_eq_getElem hlt
  have hle : (ofText source).starts[i] ≤ offset := hsplit.below i hlt (by omega)
  have hpos : 0 < (ofText source).starts[i] ↔ newline ∈ (bytes source).take offset := by
    rw [← List.count_pos_iff]
    -- The starts increase from 0.
    cases i with
    | zero =>
      have hzero : (ofText source).starts[0] = 0 := rfl
      omega
    | succ i =>
      have hinc := List.pairwise_iff_getElem.mp (pairwise_starts source) 0 (i + 1) (by omega) hlt
        (Nat.succ_pos i)
      omega
  refine ⟨(ofText source).starts[i], by rw [hi]; exact hstart, hle, hpos, ?_, ?_⟩
  · simp [lineCol, hi, lineStart, hstart]
  · simp only [lineCol?, hi, minus?, Nat.le_add_left, if_true, Nat.add_sub_cancel, Option.bind_eq_bind,
      Option.bind_some, hstart, hle]
    cases plus? (offset - (ofText source).starts[i]) 1 <;> rfl

theorem column_eq {start offset : Nat} (hle : start ≤ offset) (hlt : offset < UInt64.size)
    (hcol : offset - start + 1 < UInt64.size) : column start offset = offset - start + 1 := by
  have hsize : UInt64.size = 2 ^ 64 := rfl
  simp only [column, UInt64.toNat_add, UInt64.toNat_sub, UInt64.toNat_one, Nat.toUInt64_eq,
    UInt64.toNat_ofNat']
  omega

theorem exists_lineStart {source : String} {offset : Nat} (h : HasColumn source offset) :
    ∃ start, (ofText source).lineStart ((ofText source).line offset) = some start ∧ start ≤ offset ∧
      (ofText source).lineCol offset = ((ofText source).line offset, offset - start + 1) ∧
      (ofText source).lineCol? offset = some ((ofText source).line offset, offset - start + 1) := by
  obtain ⟨start, hstart, hle, hpos, hcol, hcol?⟩ := exists_start source offset
  obtain ⟨hlt, hsum⟩ := h
  have hfits : offset - start + 1 < UInt64.size := by
    rcases hsum with hsum | hnewline
    · omega
    · have := hpos.mpr hnewline
      omega
  refine ⟨start, hstart, hle, ?_, ?_⟩
  · rw [hcol, column_eq hle hlt hfits]
  · rw [hcol?, plus?, if_pos hfits, Option.map_some]

theorem lineCol_of_not_hasColumn {source : String} {offset : Nat} (hlt : offset < UInt64.size)
    (h : ¬ HasColumn source offset) :
    (ofText source).lineCol offset = (1, 0) ∧ (ofText source).lineCol? offset = none := by
  obtain ⟨start, hstart, hle, hpos, hcol, hcol?⟩ := exists_start source offset
  rw [HasColumn, not_and, not_or, Nat.not_lt] at h
  obtain ⟨hlast, hnewline⟩ := h hlt
  obtain rfl : start = 0 := Nat.eq_zero_of_not_pos (mt hpos.mp hnewline)
  -- What is left is the last offset, on a source that has it on its first line.
  obtain rfl : offset = UInt64.size - 1 := by omega
  have hline : (ofText source).line (UInt64.size - 1) = 1 := by
    rw [line_eq, List.count_eq_zero_of_not_mem hnewline]
  constructor
  · rw [hcol, hline]
    rfl
  · rw [hcol?, hline]
    rfl

theorem lineCol_lt {source : String} {a b : Nat} (ha : HasColumn source a) (hb : HasColumn source b)
    (hab : a < b) : toLex ((ofText source).lineCol a) < toLex ((ofText source).lineCol b) := by
  obtain ⟨start, hstart, hle, ha, -⟩ := exists_lineStart ha
  obtain ⟨start', hstart', hle', hb, -⟩ := exists_lineStart hb
  have hline : (ofText source).line a ≤ (ofText source).line b := by
    rw [line_eq, line_eq]
    exact Nat.add_le_add_left ((List.take_sublist_take_left (Nat.le_of_lt hab)).count_le newline) 1
  simp only [ha, hb, Prod.Lex.toLex_lt_toLex]
  rcases Nat.lt_or_eq_of_le hline with hlt | heq
  · exact .inl hlt
  · rw [heq, hstart', Option.some.injEq] at hstart
    exact .inr ⟨heq, by omega⟩

/-! ## The text of a line -/

/-- A text, cut at one of its lines: what stands before the line, the line, the carriage returns at
its end, and the rest from the next newline on. -/
structure IsLine (source : String) (line : Nat) (before text : String) (returns : Nat)
    (after : String) : Prop where
  whole : source = before ++ (text ++ String.ofList (List.replicate returns '\r')) ++ after
  number : (bytes before).count newline + 1 = line
  opens : before = "" ∨ ∃ s, before = s ++ "\n"
  plain : newline ∉ bytes text
  trimmed : ∀ s, text ≠ s ++ "\r"
  closes : after = "" ∨ ∃ s, after = "\n" ++ s

theorem bytes_newline : bytes "\n" = [newline] := by decide

theorem bytes_returns (n : Nat) :
    bytes (String.ofList (List.replicate n '\r')) = List.replicate n carriageReturn := by
  rw [bytes_ofList]
  induction n with
  | zero => rfl
  | succ n ih => rw [List.replicate_succ, List.flatMap_cons, ih]; rfl

theorem exists_before {source : String} {line start : Nat}
    (h : (ofText source).lineStart line = some start) :
    ∃ before rest, source = before ++ rest ∧ (bytes before).length = start ∧
      (bytes before).count newline + 1 = line ∧ (before = "" ∨ ∃ s, before = s ++ "\n") := by
  match line with
  | 0 => simp [lineStart] at h
  | 1 =>
    obtain rfl : 0 = start := by simpa [lineStart, ofText] using h
    exact ⟨"", source, by simp, rfl, rfl, .inl rfl⟩
  | i + 2 =>
    have hget : (startsAfter 0 (bytes source))[i]? = some start := by
      simpa [lineStart, ofText] using h
    obtain ⟨before, after, hcut, hcount, hstart⟩ := getElem?_startsAfter hget
    -- A newline is a character of its own, so the line starts between two characters.
    obtain ⟨s, rest, rfl, rfl⟩ := exists_texts_around (by decide) hcut
    refine ⟨s ++ "\n", rest, bytes_injective ?_, ?_, ?_, .inr ⟨s, rfl⟩⟩
    · simp [hcut, bytes_newline]
    · simp [hstart, bytes_newline]
    · simp [hcount, bytes_newline]

theorem exists_firstLine (rest : String) :
    ∃ line after, rest = line ++ after ∧ bytes line = (bytes rest).takeWhile (· ≠ newline) ∧
      (after = "" ∨ ∃ s, after = "\n" ++ s) := by
  have hcut := (bytes rest).takeWhile_append_dropWhile (p := (· ≠ newline))
  cases hdrop : (bytes rest).dropWhile (· ≠ newline) with
  | nil =>
    rw [hdrop, List.append_nil] at hcut
    exact ⟨rest, "", by simp, hcut.symm, .inl rfl⟩
  | cons b after =>
    have hb : b = newline := by
      have hne : (bytes rest).dropWhile (· ≠ newline) ≠ [] := by
        rw [hdrop]
        exact List.cons_ne_nil b after
      have hhead := List.head_dropWhile_not _ hne
      simpa only [hdrop, List.head_cons, ne_eq, decide_eq_false_iff_not, not_not] using hhead
    subst hb
    rw [hdrop] at hcut
    obtain ⟨line, s, hline, hs⟩ := exists_texts_around (by decide) hcut.symm
    refine ⟨line, "\n" ++ s, bytes_injective ?_, hline, .inr ⟨s, rfl⟩⟩
    rw [bytes_append, bytes_append, hline, hs, bytes_newline, List.singleton_append, hcut]

theorem exists_trimmed (line : String) :
    ∃ text returns, line = text ++ String.ofList (List.replicate returns '\r') ∧
      bytes text = ((bytes line).reverse.dropWhile (· = carriageReturn)).reverse ∧
      ∀ s, text ≠ s ++ "\r" := by
  let p : UInt8 → Bool := (· = carriageReturn)
  have hreturns : (bytes line).rtakeWhile p =
      List.replicate ((bytes line).rtakeWhile p).length carriageReturn := by
    rw [List.eq_replicate_iff]
    refine ⟨rfl, fun b hb => ?_⟩
    rw [List.rtakeWhile, List.mem_reverse] at hb
    simpa [p] using List.mem_takeWhile_imp hb
  have hcut : (bytes line).rdropWhile p ++
      List.replicate ((bytes line).rtakeWhile p).length carriageReturn = bytes line := by
    rw [← hreturns, List.rdropWhile_append_rtakeWhile]
  generalize ((bytes line).rtakeWhile p).length = returns at hcut
  -- A carriage return is a character of its own, so the text before it ends between two.
  obtain ⟨text, htext⟩ : ∃ text, bytes text = (bytes line).rdropWhile p := by
    cases returns with
    | zero => exact ⟨line, by simpa using hcut.symm⟩
    | succ n =>
      rw [List.replicate_succ] at hcut
      obtain ⟨text, -, htext, -⟩ := exists_texts_around (by decide) hcut.symm
      exact ⟨text, htext⟩
  refine ⟨text, returns, bytes_injective ?_, htext, ?_⟩
  · rw [bytes_append, bytes_returns, htext, hcut]
  · rintro s rfl
    have hend : (bytes line).rdropWhile p = bytes s ++ [carriageReturn] := by
      rw [← htext, bytes_append]
      rfl
    have hlast := List.rdropWhile_last_not p (bytes line) (by rw [hend]; simp)
    simp [hend, p] at hlast

theorem exists_lineText {source : String} {line start : Nat}
    (h : (ofText source).lineStart line = some start) :
    ∃ before text returns after, IsLine source line before text returns after ∧
      (bytes before).length = start ∧ (ofText source).lineText source line = some text := by
  obtain ⟨before, rest, hsource, hstart, hnumber, hopens⟩ := exists_before h
  obtain ⟨line', after, hrest, hline, hcloses⟩ := exists_firstLine rest
  obtain ⟨text, returns, hline', htext, htrimmed⟩ := exists_trimmed line'
  refine ⟨before, text, returns, after, ⟨?_, hnumber, hopens, ?_, htrimmed, hcloses⟩, hstart, ?_⟩
  · rw [hsource, hrest, hline', String.append_assoc, String.append_assoc, String.append_assoc]
  · intro hmem
    have hin : newline ∈ (bytes rest).takeWhile (· ≠ newline) := by
      rw [← hline, hline', bytes_append]
      exact List.mem_append_left _ hmem
    simpa using List.mem_takeWhile_imp hin
  · have hdrop : Text.drop? source start = some rest := by
      rw [Text.drop?, hsource, bytes_append, if_pos (by rw [List.length_append]; omega),
        List.drop_left' hstart, ofBytes?_bytes]
    simp only [lineText, h, hdrop, Option.bind_eq_bind, Option.bind_some, ← hline]
    rw [← htext, ofBytes?_bytes]

end LineIndex

end ConvSweep
