import Mathlib
import ConvSweep.Json.Decode
import ConvSweep.Json.Writer

/-! # Reading back what was written

A text spells a value if the reader makes that value of it, whatever follows: the numbers, strings,
arrays and objects of the writer all do. `Reads` adds what a decoder takes out of the value, so a
format is read back as soon as each of its parts is.
-/

namespace ConvSweep

namespace Json

open Reader

/-! ## Numbers -/

/-- The digits of a number, the first counting most. -/
def decimalDigits (n : Nat) : List Nat :=
  if n < 10 then [n] else decimalDigits (n / 10) ++ [n % 10]

/-- The byte of a digit. -/
def digitByte (d : Nat) : UInt8 := UInt8.ofNat (48 + d)

theorem utf8EncodeChar_digitChar {d : Nat} (h : d < 10) :
    String.utf8EncodeChar (Nat.digitChar d) = [digitByte d] := by
  interval_cases d <;> rfl

theorem digit?_digitByte {d : Nat} (h : d < 10) : digit? (digitByte d) = some d := by
  interval_cases d <;> rfl

theorem lt_ten_of_mem_decimalDigits {n d : Nat} (h : d ∈ decimalDigits n) : d < 10 := by
  fun_induction decimalDigits n with
  | case1 n hn => simp at h; omega
  | case2 n hn ih => grind

theorem ofDigits_decimalDigits (n : Nat) : ofDigits 10 (decimalDigits n) = n := by
  fun_induction decimalDigits n with
  | case1 n hn => simp [ofDigits]
  | case2 n hn ih =>
    unfold ofDigits at ih ⊢
    rw [List.foldl_append, ih]
    simp
    omega

theorem decimalDigits_cases (n : Nat) :
    decimalDigits n = [0] ∨ ∃ d ds, decimalDigits n = (d + 1) :: ds := by
  fun_induction decimalDigits n with
  | case1 n hn =>
    cases n with
    | zero => exact .inl rfl
    | succ d => exact .inr ⟨d, [], rfl⟩
  | case2 n hn ih =>
    right
    rcases ih with h | ⟨d, ds, h⟩
    · have hzero := ofDigits_decimalDigits (n / 10)
      rw [h] at hzero
      simp [ofDigits] at hzero
      omega
    · exact ⟨d, ds ++ [n % 10], by rw [h]; rfl⟩

theorem bytes_toString (n : Nat) :
    Text.bytes (toString n) = (decimalDigits n).map digitByte := by
  change Text.bytes (String.ofList (Nat.toDigits 10 n)) = _
  rw [Text.bytes_ofList]
  fun_induction decimalDigits n with
  | case1 n hn => simp [Nat.toDigits_of_lt_base hn, utf8EncodeChar_digitChar hn]
  | case2 n hn ih =>
    rw [Nat.toDigits_of_base_le (by omega) (by omega)]
    simp [ih, utf8EncodeChar_digitChar (Nat.mod_lt n (by omega : 10 > 0))]

theorem digits_map_append {ds : List Nat} (h : ∀ d ∈ ds, d < 10) {rest : List UInt8}
    (hrest : ∀ b ∈ rest.head?, digit? b = none) :
    digits (ds.map digitByte ++ rest) = (ds, rest) := by
  induction ds with
  | nil =>
    cases rest with
    | nil => rfl
    | cons b rest => simp [digits, hrest b (by simp)]
  | cons d ds ih =>
    have hd := h d (by simp)
    rw [List.map_cons, List.cons_append]
    unfold digits
    rw [digit?_digitByte hd, ih fun x hx => h x (by simp [hx])]


/-- What may follow a value: nothing, a comma or the end of the line. -/
def Follows (rest : List UInt8) : Prop := ∀ b ∈ rest.head?, b = 0x2c ∨ b = 0x0a

theorem number_toString (n : Nat) {rest : List UInt8} (hrest : Follows rest) :
    number false (Text.bytes (toString n) ++ rest) =
      .ok (⟨false, decimalDigits n, none, none⟩, rest) := by
  have hdigits : digits (Text.bytes (toString n) ++ rest) = (decimalDigits n, rest) := by
    rw [bytes_toString]
    apply digits_map_append (fun d hd => lt_ten_of_mem_decimalDigits hd)
    intro b hb
    rcases hrest b hb with rfl | rfl <;> rfl
  have htail : rest = [] ∨ ∃ bs, rest = 0x2c :: bs ∨ rest = 0x0a :: bs := by
    cases rest with
    | nil => exact .inl rfl
    | cons b bs => exact .inr ⟨bs, by simpa [Follows] using hrest⟩
  unfold number
  rw [hdigits]
  -- Neither the digits nor what follows them lead to a fault, a fraction or an exponent.
  rcases decimalDigits_cases n with h | ⟨d, ds, h⟩ <;> rw [h] <;>
    rcases htail with rfl | ⟨bs, rfl | rfl⟩ <;> rfl

/-! ## Strings -/

/-- A byte that stands for itself in a string. -/
def IsPlain (b : UInt8) : Prop := b ≠ 0x22 ∧ b ≠ 0x5c ∧ ¬ b < 0x20

theorem isPlain_ofNat {n : Nat} (hn : n < 256) (hq : n ≠ 0x22) (hb : n ≠ 0x5c) (hc : 0x20 ≤ n) :
    IsPlain (UInt8.ofNat n) := by
  refine ⟨fun h => hq ?_, fun h => hb ?_, fun h => ?_⟩
  · simpa [Nat.mod_eq_of_lt hn] using congrArg UInt8.toNat h
  · simpa [Nat.mod_eq_of_lt hn] using congrArg UInt8.toNat h
  · have := UInt8.lt_iff_toNat_lt.mp h
    simp [Nat.mod_eq_of_lt hn] at this
    omega

theorem isPlain_of_mem_utf8EncodeChar {c : Char} (hq : c ≠ '"') (hb : c ≠ '\\')
    (hc : ¬ c.toNat < 0x20) {b : UInt8} (h : b ∈ String.utf8EncodeChar c) : IsPlain b := by
  have hq' : c.val.toNat ≠ 0x22 := fun h => hq (Char.toNat_inj.mp h)
  have hb' : c.val.toNat ≠ 0x5c := fun h => hb (Char.toNat_inj.mp h)
  have hc' : 0x20 ≤ c.val.toNat := not_lt.mp hc
  have hlead : ∀ n, 0x80 ≤ n → n < 256 → IsPlain (UInt8.ofNat n) := fun n h1 h2 =>
    isPlain_ofNat h2 (by omega) (by omega) (by omega)
  simp only [String.utf8EncodeChar] at h
  split at h
  · rw [List.mem_singleton.mp h]
    exact isPlain_ofNat (by omega) hq' hb' hc'
  · -- Every byte of a longer character has its highest bit set.
    split at h
    · simp only [List.mem_cons, List.not_mem_nil, or_false] at h
      rcases h with rfl | rfl <;> exact hlead _ (by omega) (by omega)
    · split at h
      · simp only [List.mem_cons, List.not_mem_nil, or_false] at h
        rcases h with rfl | rfl | rfl <;> exact hlead _ (by omega) (by omega)
      · simp only [List.mem_cons, List.not_mem_nil, or_false] at h
        rcases h with rfl | rfl | rfl | rfl <;> exact hlead _ (by omega) (by omega)

theorem string_plain {bs rest reversed : List UInt8} {fuel : Nat} (h : ∀ b ∈ bs, IsPlain b) :
    Reader.string (bs.length + fuel) none reversed (bs ++ rest) =
      Reader.string fuel none (bs.reverse ++ reversed) rest := by
  induction bs generalizing reversed with
  | nil => simp
  | cons b bs ih =>
    obtain ⟨hq, hb, hc⟩ := h b (by simp)
    rw [List.length_cons, Nat.add_right_comm, List.cons_append, Reader.string.eq_def]
    simp only [hq, hb, hc, if_false]
    rw [ih fun x hx => h x (by simp [hx])]
    simp

theorem encodeChar_cases (c : Char) :
    (∃ e b : UInt8, (Writer.encodeChar c).flatMap String.utf8EncodeChar = [0x5c, e] ∧ e ≠ 0x75 ∧
        escape? e = some b ∧ String.utf8EncodeChar c = [b]) ∨
      (c.toNat < 0x20 ∧ Writer.encodeChar c = '\\' :: 'u' :: Writer.fourDigits c.toNat) ∨
      (Writer.encodeChar c = [c] ∧ ∀ b ∈ String.utf8EncodeChar c, IsPlain b) := by
  -- The written characters get a name, so that only one copy of the cases is split.
  generalize hcs : Writer.encodeChar c = cs
  unfold Writer.encodeChar at hcs
  split at hcs
  · subst c cs; exact .inl ⟨0x22, 0x22, by decide +kernel⟩
  split at hcs
  · subst c cs; exact .inl ⟨0x5c, 0x5c, by decide +kernel⟩
  split at hcs
  · subst c cs; exact .inl ⟨0x62, 0x08, by decide +kernel⟩
  split at hcs
  · subst c cs; exact .inl ⟨0x74, 0x09, by decide +kernel⟩
  split at hcs
  · subst c cs; exact .inl ⟨0x6e, 0x0a, by decide +kernel⟩
  split at hcs
  · subst c cs; exact .inl ⟨0x66, 0x0c, by decide +kernel⟩
  split at hcs
  · subst c cs; exact .inl ⟨0x72, 0x0d, by decide +kernel⟩
  split at hcs
  · rename_i hc
    exact .inr (.inl ⟨hc, hcs.symm⟩)
  · rename_i hq hb _ _ _ _ _ hc
    exact .inr (.inr ⟨hcs.symm, fun b hmem => isPlain_of_mem_utf8EncodeChar hq hb hc hmem⟩)

theorem string_control {n : Nat} (hn : n < 0x20) {fuel : Nat} {reversed rest : List UInt8} :
    Reader.string (fuel + 1) none reversed
        (('\\' :: 'u' :: Writer.fourDigits n).flatMap String.utf8EncodeChar ++ rest) =
      Reader.string fuel none ((String.utf8EncodeChar (Char.ofNat n)).reverse ++ reversed)
        rest := by
  interval_cases n <;> rfl

theorem string_escape {e b : UInt8} (he : e ≠ 0x75) (hb : escape? e = some b) {fuel : Nat}
    {reversed rest : List UInt8} :
    Reader.string (fuel + 1) none reversed (0x5c :: e :: rest) =
      Reader.string fuel none (b :: reversed) rest := by
  rw [Reader.string.eq_def]
  simp [he, hb]

theorem string_encodeChar (c : Char) :
    ∃ n ≤ ((Writer.encodeChar c).flatMap String.utf8EncodeChar).length,
      ∀ fuel reversed rest, Reader.string (fuel + n) none reversed
          ((Writer.encodeChar c).flatMap String.utf8EncodeChar ++ rest) =
        Reader.string fuel none ((String.utf8EncodeChar c).reverse ++ reversed) rest := by
  obtain ⟨e, b, henc, he, hb, hc⟩ | ⟨hc, henc⟩ | ⟨henc, hplain⟩ := encodeChar_cases c
  · refine ⟨1, by simp [henc], fun fuel reversed rest => ?_⟩
    rw [henc, hc]
    exact string_escape he hb
  · have hlength : 1 ≤ ((Writer.encodeChar c).flatMap String.utf8EncodeChar).length := by
      simp [henc, Nat.le_add_right_of_le (Char.utf8Size_pos _)]
    refine ⟨1, hlength, fun fuel reversed rest => ?_⟩
    rw [henc, string_control hc, Char.ofNat_toNat]
  · refine ⟨(String.utf8EncodeChar c).length, by simp [henc], fun fuel reversed rest => ?_⟩
    rw [henc, Nat.add_comm, List.flatMap_singleton, string_plain hplain]

theorem string_flatMap (cs : List Char) {fuel : Nat} {reversed rest : List UInt8}
    (hfuel : ((cs.flatMap Writer.encodeChar).flatMap String.utf8EncodeChar).length < fuel) :
    Reader.string fuel none reversed
        ((cs.flatMap Writer.encodeChar).flatMap String.utf8EncodeChar ++ 0x22 :: rest) =
      .closed (content none ((cs.flatMap String.utf8EncodeChar).reverse ++ reversed)) rest := by
  induction cs generalizing fuel reversed with
  | nil =>
    cases fuel with
    | zero => simp at hfuel
    | succ fuel => rfl
  | cons c cs ih =>
    obtain ⟨n, hn, hread⟩ := string_encodeChar c
    simp only [List.flatMap_cons, List.flatMap_append, List.length_append] at hfuel ⊢
    obtain ⟨fuel, rfl⟩ : ∃ k, fuel = k + n := ⟨fuel - n, by omega⟩
    rw [List.append_assoc, hread, ih (by omega)]
    simp

theorem exists_bytes_string (s : String) :
    ∃ bs, Text.bytes (Writer.string s) = 0x22 :: bs ∧
      ∀ fuel rest, bs.length ≤ fuel →
        Reader.string fuel none [] (bs ++ rest) = .closed (.ok s) rest := by
  have hquote : String.utf8EncodeChar '"' = [0x22] := by decide
  refine ⟨(s.toList.flatMap Writer.encodeChar).flatMap String.utf8EncodeChar ++ [0x22], ?_, ?_⟩
  · unfold Writer.string
    rw [Text.bytes_ofList]
    simp [hquote]
  · intro fuel rest hfuel
    rw [List.length_append, List.length_singleton] at hfuel
    rw [List.append_assoc, List.singleton_append, string_flatMap _ (by omega)]
    simp [content, ← Text.bytes_eq_flatMap, Text.ofBytes?_bytes]

/-! ## Values -/

theorem skipBlanks_append {ws bs : List UInt8} (h : ∀ b ∈ ws, isBlankByte b = true) :
    skipBlanks (ws ++ bs) = skipBlanks bs :=
  List.dropWhile_append_of_pos h

theorem skipBlanks_skipBlanks (bs : List UInt8) : skipBlanks (skipBlanks bs) = skipBlanks bs :=
  List.dropWhile_idempotent _ bs

theorem value_skipBlanks (fuel : Nat) (bs : List UInt8) :
    value fuel (skipBlanks bs) = value fuel bs := by
  cases fuel with
  | zero => rfl
  | succ fuel => rw [value, value, skipBlanks_skipBlanks]

theorem items_skipBlanks (fuel : Nat) (bs : List UInt8) :
    items fuel (skipBlanks bs) = items fuel bs := by
  cases fuel with
  | zero => rfl
  | succ fuel => rw [items, items, value_skipBlanks]

theorem members_skipBlanks (fuel : Nat) (bs : List UInt8) :
    members fuel (skipBlanks bs) = members fuel bs := by
  cases fuel with
  | zero => rfl
  | succ fuel => rw [members, members, skipBlanks_skipBlanks]

theorem isBlankByte_of_mem_indent {depth : Nat} {b : UInt8}
    (h : b ∈ Text.bytes (Writer.indent depth)) : isBlankByte b = true := by
  unfold Writer.indent at h
  rw [Text.bytes_ofList] at h
  obtain ⟨c, hc, hb⟩ := List.mem_flatMap.mp h
  rw [List.eq_of_mem_replicate hc] at hb
  have hspace : String.utf8EncodeChar ' ' = [0x20] := by decide
  rw [hspace] at hb
  rw [List.mem_singleton.mp hb]
  rfl

theorem skipBlanks_newline (bs : List UInt8) : skipBlanks (0x0a :: bs) = skipBlanks bs := rfl

theorem skipBlanks_indent_cons {b : UInt8} (hb : isBlankByte b = false) (depth : Nat)
    (rest : List UInt8) :
    skipBlanks (Text.bytes (Writer.indent depth) ++ b :: rest) = b :: rest := by
  rw [skipBlanks_append fun b hb => isBlankByte_of_mem_indent hb]
  simp [skipBlanks, hb]

/-- The text is read as the value, whatever follows it. -/
structure Spells (s : String) (v : Value) : Prop where
  starts : ∃ b bs, Text.bytes s = b :: bs ∧ isBlankByte b = false ∧ b ≠ 0x5d
  reads : ∀ fuel rest, Follows rest → 2 * (Text.bytes s).length ≤ fuel →
    value fuel (Text.bytes s ++ rest) = (v, some rest)

theorem spells_nat (n : Nat) :
    Spells (toString n) (.number ⟨false, decimalDigits n, none, none⟩) := by
  obtain ⟨d, ds, hcons, hd⟩ : ∃ d ds, decimalDigits n = d :: ds ∧ d < 10 := by
    rcases decimalDigits_cases n with h | ⟨d, ds, h⟩
    · exact ⟨0, [], h, by omega⟩
    · exact ⟨d + 1, ds, h, lt_ten_of_mem_decimalDigits (n := n) (by simp [h])⟩
  have hbytes : Text.bytes (toString n) = digitByte d :: ds.map digitByte := by
    rw [bytes_toString, hcons, List.map_cons]
  constructor
  · refine ⟨_, _, hbytes, ?_, ?_⟩ <;> interval_cases d <;> decide
  · intro fuel rest hrest hfuel
    have hpos : 0 < (Text.bytes (toString n)).length := by rw [hbytes]; simp
    obtain ⟨fuel, rfl⟩ : ∃ k, fuel = k + 1 := ⟨fuel - 1, by omega⟩
    have hnumeral : numeral false (Text.bytes (toString n) ++ rest) =
        (.number ⟨false, decimalDigits n, none, none⟩, some rest) := by
      unfold numeral
      rw [number_toString n hrest]
    rw [← hnumeral, hbytes]
    interval_cases d <;> rfl

/-! ## Arrays and objects -/

/-- One entry of a written array or object, as its loop reads it. -/
structure Enters {β : Type} (loop : Nat → List UInt8 → List β × Ending × Option (List UInt8))
    (close : UInt8) (e : String) (x : β) : Prop where
  more : ∀ fuel bs, 2 * (Text.bytes e).length ≤ fuel →
    loop (fuel + 1) (Text.bytes e ++ 0x2c :: bs) = (x :: (loop fuel bs).1, (loop fuel bs).2)
  last : ∀ fuel bs rest, 2 * (Text.bytes e).length ≤ fuel → skipBlanks bs = close :: rest →
    loop (fuel + 1) (Text.bytes e ++ 0x0a :: bs) = ([x], .closed, some rest)

section Loops

variable {β : Type} {loop : Nat → List UInt8 → List β × Ending × Option (List UInt8)}
  {close : UInt8}

/-- The lines of the entries. -/
def entryLines (depth : Nat) (es : List String) : List UInt8 :=
  Text.bytes (",\n".intercalate (es.map (Writer.indent depth ++ ·)))

theorem entryLines_singleton (depth : Nat) (e : String) :
    entryLines depth [e] = Text.bytes (Writer.indent depth) ++ Text.bytes e := by
  simp [entryLines]

theorem entryLines_cons_cons (depth : Nat) (e e' : String) (es : List String) :
    entryLines depth (e :: e' :: es) =
      Text.bytes (Writer.indent depth) ++
        (Text.bytes e ++ 0x2c :: 0x0a :: entryLines depth (e' :: es)) := by
  have hcomma : Text.bytes ",\n" = [0x2c, 0x0a] := by decide
  simp [entryLines, hcomma]

theorem loop_entryLines (hskip : ∀ fuel bs, loop fuel (skipBlanks bs) = loop fuel bs)
    {depth : Nat} {e : String} {es : List String} {x : β} {xs : List β}
    (hx : Enters loop close e x) (hxs : List.Forall₂ (Enters loop close) es xs)
    {fuel : Nat} {bs rest : List UInt8} (hbs : skipBlanks bs = close :: rest)
    (hfuel : 2 * (entryLines depth (e :: es)).length < fuel) :
    loop fuel (entryLines depth (e :: es) ++ 0x0a :: bs) = (x :: xs, .closed, some rest) := by
  have hindent : ∀ fuel bs, loop fuel (Text.bytes (Writer.indent depth) ++ bs) = loop fuel bs := by
    intro fuel bs
    rw [← hskip, skipBlanks_append fun b hb => isBlankByte_of_mem_indent hb, hskip]
  have hline : ∀ fuel bs, loop fuel (0x0a :: bs) = loop fuel bs := by
    intro fuel bs
    rw [← hskip, ← hskip fuel bs]
    rfl
  induction hxs generalizing e x fuel with
  | nil =>
    rw [entryLines_singleton, List.length_append] at hfuel
    obtain ⟨fuel, rfl⟩ : ∃ k, fuel = k + 1 := ⟨fuel - 1, by omega⟩
    rw [entryLines_singleton, List.append_assoc, hindent]
    exact hx.last fuel bs rest (by omega) hbs
  | cons hy _ ih =>
    simp only [entryLines_cons_cons, List.length_append, List.length_cons] at hfuel
    obtain ⟨fuel, rfl⟩ : ∃ k, fuel = k + 1 := ⟨fuel - 1, by omega⟩
    simp only [entryLines_cons_cons, List.append_assoc, List.cons_append]
    rw [hindent, hx.more _ _ (by omega), hline, ih hy (by omega)]

theorem exists_bytes_entries (hskip : ∀ fuel bs, loop fuel (skipBlanks bs) = loop fuel bs)
    {left right : String} {l b : UInt8} (hl : Text.bytes left = [l])
    (hr : Text.bytes right = [close]) (hclose : isBlankByte close = false) (depth : Nat)
    {e : String} {es : List String} {x : β} {xs : List β}
    (hb : ∃ bs, Text.bytes e = b :: bs) (hblank : isBlankByte b = false)
    (hx : Enters loop close e x) (hxs : List.Forall₂ (Enters loop close) es xs) :
    ∃ body, Text.bytes (Writer.entries left right depth (e :: es)) = l :: body ∧
      ∀ fuel rest, 2 * body.length ≤ fuel →
        (∃ t, skipBlanks (body ++ rest) = b :: t) ∧
          loop fuel (body ++ rest) = (x :: xs, .closed, some rest) := by
  have hline : Text.bytes "\n" = [0x0a] := by decide
  refine ⟨0x0a :: (entryLines (depth + 1) (e :: es) ++ 0x0a ::
    (Text.bytes (Writer.indent depth) ++ [close])), ?_, fun fuel rest hfuel => ?_⟩
  · simp [Writer.entries, entryLines, hl, hr, hline]
  · simp only [List.length_cons, List.length_append] at hfuel
    simp only [List.cons_append, List.append_assoc, List.nil_append]
    constructor
    · obtain ⟨bs, hbs⟩ := hb
      have hfirst : ∃ t, entryLines (depth + 1) (e :: es) =
          Text.bytes (Writer.indent (depth + 1)) ++ b :: t := by
        cases es with
        | nil => exact ⟨_, by rw [entryLines_singleton, hbs]⟩
        | cons e' es => exact ⟨_, by rw [entryLines_cons_cons, hbs]; rfl⟩
      obtain ⟨t, ht⟩ := hfirst
      rw [ht, skipBlanks_newline, List.append_assoc, List.cons_append]
      exact ⟨_, skipBlanks_indent_cons hblank _ _⟩
    · rw [← hskip, skipBlanks_newline, hskip]
      exact loop_entryLines hskip hx hxs (skipBlanks_indent_cons hclose depth rest) (by omega)

end Loops

theorem Spells.enters {s : String} {v : Value} (h : Spells s v) : Enters items 0x5d s v := by
  constructor
  · intro fuel bs hfuel
    rw [items, h.reads fuel _ (by simp [Follows]) hfuel]
    rfl
  · intro fuel bs rest hfuel hbs
    rw [items, h.reads fuel _ (by simp [Follows]) hfuel]
    have hskip : skipBlanks (0x0a :: bs) = 0x5d :: rest := hbs
    simp only [hskip]

theorem Spells.enters_member {k s : String} {v : Value} (h : Spells s v) :
    Enters members 0x7d (Writer.string k ++ ": " ++ s) (.ok k, v) := by
  obtain ⟨q, hq, hstring⟩ := exists_bytes_string k
  have hcolon : Text.bytes ": " = [0x3a, 0x20] := by decide
  have hbytes : Text.bytes (Writer.string k ++ ": " ++ s) =
      0x22 :: (q ++ 0x3a :: 0x20 :: Text.bytes s) := by
    simp [hq, hcolon]
  -- The key is read to its closing quote, and the value from the blank behind the colon.
  have hkey : ∀ bs, key (q ++ 0x3a :: bs) = .ok (.ok k, bs) := by
    intro bs
    unfold key
    rw [hstring _ _ (by simp)]
    rfl
  have hvalue : ∀ fuel rest, Follows rest → 2 * (Text.bytes s).length ≤ fuel →
      value fuel (0x20 :: (Text.bytes s ++ rest)) = (v, some rest) := by
    intro fuel rest hrest hfuel
    rw [← h.reads fuel rest hrest hfuel, ← value_skipBlanks, ← value_skipBlanks fuel (_ ++ _)]
    rfl
  have hquote : ∀ bs, skipBlanks (0x22 :: bs) = 0x22 :: bs := fun _ => rfl
  constructor
  · intro fuel bs hfuel
    simp only [hbytes, List.length_cons, List.length_append] at hfuel
    rw [hbytes, members]
    simp only [List.cons_append, List.append_assoc, hquote, hkey]
    rw [hvalue fuel _ (by simp [Follows]) (by omega)]
    rfl
  · intro fuel bs rest hfuel hbs
    simp only [hbytes, List.length_cons, List.length_append] at hfuel
    have hskip : skipBlanks (0x0a :: bs) = 0x7d :: rest := hbs
    rw [hbytes, members]
    simp only [List.cons_append, List.append_assoc, hquote, hkey]
    rw [hvalue fuel _ (by simp [Follows]) (by omega)]
    simp only [hskip]

theorem value_array {fuel : Nat} {bs t : List UInt8} {b : UInt8} (hbs : skipBlanks bs = b :: t)
    (hb : b ≠ 0x5d) {vs : List Value} {rest : List UInt8}
    (h : items fuel bs = (vs, .closed, some rest)) :
    value (fuel + 1) (0x5b :: bs) = (.array vs .closed, some rest) := by
  have hopen : skipBlanks (0x5b :: bs) = 0x5b :: bs := rfl
  have hdigit : (digit? 0x5b).isSome = false := rfl
  rw [← items_skipBlanks, hbs] at h
  rw [value]
  simp [hopen, hdigit, hbs, hb, h]

theorem value_object {fuel : Nat} {bs t : List UInt8} (hbs : skipBlanks bs = 0x22 :: t)
    {ms : List (Except Fault String × Value)} {rest : List UInt8}
    (h : members fuel bs = (ms, .closed, some rest)) :
    value (fuel + 1) (0x7b :: bs) = (.object ms .closed, some rest) := by
  have hopen : skipBlanks (0x7b :: bs) = 0x7b :: bs := rfl
  have hdigit : (digit? 0x7b).isSome = false := rfl
  rw [← members_skipBlanks, hbs] at h
  rw [value]
  simp [hopen, hdigit, hbs, h]

theorem spells_array {depth : Nat} {es : List String} {vs : List Value}
    (h : List.Forall₂ Spells es vs) : Spells (Writer.array depth es) (.array vs .closed) := by
  cases h with
  | nil =>
    have hbytes : Text.bytes (Writer.array depth []) = [0x5b, 0x5d] := by
      rw [Writer.array, Writer.entries, List.isEmpty_nil, if_pos rfl, Text.bytes_append]
      decide
    refine ⟨⟨_, _, hbytes, by decide, by decide⟩, fun fuel rest _ hfuel => ?_⟩
    rw [hbytes] at hfuel ⊢
    simp only [List.length_cons] at hfuel
    obtain ⟨fuel, rfl⟩ : ∃ k, fuel = k + 1 := ⟨fuel - 1, by omega⟩
    rfl
  | cons hv hvs =>
    obtain ⟨b, bs, hstart, hblank, hb⟩ := hv.starts
    obtain ⟨body, hbytes, hbody⟩ := exists_bytes_entries items_skipBlanks
      (show Text.bytes "[" = [0x5b] by decide) (show Text.bytes "]" = [0x5d] by decide) (by decide)
      depth ⟨bs, hstart⟩ hblank hv.enters (hvs.imp fun _ _ => Spells.enters)
    refine ⟨⟨_, _, hbytes, by decide, by decide⟩, fun fuel rest _ hfuel => ?_⟩
    unfold Writer.array at hfuel ⊢
    rw [hbytes, List.length_cons] at hfuel
    obtain ⟨fuel, rfl⟩ : ∃ k, fuel = k + 1 := ⟨fuel - 1, by omega⟩
    obtain ⟨⟨t, ht⟩, hitems⟩ := hbody fuel rest (by omega)
    rw [hbytes]
    exact value_array ht hb hitems

theorem object_eq (depth : Nat) (ms : List (String × String)) :
    Writer.object depth ms =
      Writer.entries "\x7b" "\x7d" depth (ms.map fun m => Writer.string m.1 ++ ": " ++ m.2) :=
  rfl

theorem spells_object {depth : Nat} {ms : List (String × String)}
    {vs : List (Except Fault String × Value)}
    (h : List.Forall₂ (fun m x => x.1 = .ok m.1 ∧ Spells m.2 x.2) ms vs) :
    Spells (Writer.object depth ms) (.object vs .closed) := by
  have henters : List.Forall₂ (Enters members 0x7d)
      (ms.map fun m => Writer.string m.1 ++ ": " ++ m.2) vs := by
    rw [List.forall₂_map_left_iff]
    refine h.imp fun m x hx => ?_
    obtain ⟨name, v⟩ := x
    obtain ⟨rfl, hv⟩ := hx
    exact hv.enters_member
  rw [object_eq]
  cases h with
  | nil =>
    have hbytes : Text.bytes (Writer.entries "\x7b" "\x7d" depth []) = [0x7b, 0x7d] := by
      rw [Writer.entries, List.isEmpty_nil, if_pos rfl, Text.bytes_append]
      decide
    refine ⟨⟨_, _, hbytes, by decide, by decide⟩, fun fuel rest _ hfuel => ?_⟩
    rw [List.map_nil, hbytes] at hfuel ⊢
    simp only [List.length_cons] at hfuel
    obtain ⟨fuel, rfl⟩ : ∃ k, fuel = k + 1 := ⟨fuel - 1, by omega⟩
    rfl
  | @cons m x ms xs hm hms =>
    obtain ⟨q, hq, -⟩ := exists_bytes_string m.1
    have hquote : ∃ bs, Text.bytes (Writer.string m.1 ++ ": " ++ m.2) = 0x22 :: bs :=
      ⟨_, by rw [Text.bytes_append, Text.bytes_append, hq]; rfl⟩
    obtain ⟨hx, hxs⟩ := List.forall₂_cons.mp henters
    obtain ⟨body, hbytes, hbody⟩ := exists_bytes_entries members_skipBlanks
      (show Text.bytes "\x7b" = [0x7b] by decide) (show Text.bytes "\x7d" = [0x7d] by decide)
      (by decide) depth hquote (by decide) hx hxs
    refine ⟨⟨_, _, hbytes, by decide, by decide⟩, fun fuel rest _ hfuel => ?_⟩
    rw [List.map_cons, hbytes, List.length_cons] at hfuel
    obtain ⟨fuel, rfl⟩ : ∃ k, fuel = k + 1 := ⟨fuel - 1, by omega⟩
    obtain ⟨⟨t, ht⟩, hmembers⟩ := hbody fuel rest (by omega)
    rw [List.map_cons, hbytes]
    exact value_object ht hmembers

/-! ## Documents -/

/-- The text is read as what `f` makes of it. -/
def Reads {α : Type} (f : Value → Decoded α) (s : String) (a : α) : Prop :=
  ∃ v, Spells s v ∧ f v = .ok a

theorem reads_nat {n : Nat} (h : n < Number.limit) : Reads Value.toNat (toString n) n := by
  refine ⟨_, spells_nat n, ?_⟩
  simp [Value.toNat, Number.toNat?, ofDigits_decimalDigits, h]

theorem mapM_map_eq_ok {ε α β : Type} {f : β → Except ε α} {g : α → β} {as : List α}
    (h : ∀ a ∈ as, f (g a) = .ok a) : (as.map g).mapM f = .ok as := by
  induction as with
  | nil => rfl
  | cons a as ih =>
    rw [List.map_cons, List.mapM_cons, h a (by simp), ih fun x hx => h x (by simp [hx])]
    rfl

section Rows

variable {α : Type} {f : Value → Decoded α} {write : α → String}

theorem exists_spelled {as : List α} (h : ∀ a ∈ as, Reads f (write a) a) :
    ∃ spelled : α → Value, ∀ a ∈ as, Spells (write a) (spelled a) ∧ f (spelled a) = .ok a := by
  have : Nonempty Value := ⟨.null⟩
  choose! spelled hspelled using h
  exact ⟨spelled, hspelled⟩

theorem reads_array {as : List α} (h : ∀ a ∈ as, Reads f (write a) a) (depth : Nat) :
    Reads (Value.toList f) (Writer.array depth (as.map write)) as := by
  obtain ⟨spelled, hspelled⟩ := exists_spelled h
  refine ⟨.array (as.map spelled) .closed, spells_array ?_, ?_⟩
  · rw [List.forall₂_map_left_iff, List.forall₂_map_right_iff, List.forall₂_same]
    exact fun a ha => (hspelled a ha).1
  · rw [Value.toList, mapM_map_eq_ok fun a ha => (hspelled a ha).2]
    rfl

theorem reads_members {as : List (String × α)} (h : ∀ a ∈ as, Reads f (write a.2) a.2)
    (depth : Nat) :
    Reads (Value.toMembers f) (Writer.object depth (as.map fun a => (a.1, write a.2))) as := by
  have hvalues : ∀ x ∈ as.map (·.2), Reads f (write x) x := by
    intro x hx
    obtain ⟨a, ha, rfl⟩ := List.mem_map.mp hx
    exact h a ha
  obtain ⟨spelled, hspelled⟩ := exists_spelled hvalues
  have hmem : ∀ a ∈ as, Spells (write a.2) (spelled a.2) ∧ f (spelled a.2) = .ok a.2 :=
    fun a ha => hspelled a.2 (List.mem_map_of_mem ha)
  refine ⟨.object (as.map fun a => (.ok a.1, spelled a.2)) .closed, spells_object ?_, ?_⟩
  · rw [List.forall₂_map_left_iff, List.forall₂_map_right_iff, List.forall₂_same]
    exact fun a ha => ⟨rfl, (hmem a ha).1⟩
  · rw [Value.toMembers, mapM_map_eq_ok]
    · rfl
    · intro a ha
      simp only [(hmem a ha).2]
      rfl

end Rows

theorem Reads.decode {α : Type} {f : Value → Decoded α} {s : String} {a : α} (h : Reads f s a) :
    (Document.ofBytes (Text.bytes s)).decode f = .ok a := by
  obtain ⟨v, hv, hfv⟩ := h
  have hread := hv.reads (2 * (Text.bytes s).length + 2) [] (by simp [Follows]) (by omega)
  rw [List.append_nil] at hread
  unfold Document.ofBytes
  rw [hread]
  simp only [Document.decode, hfv]
  rfl

end Json

end ConvSweep
