import ConvSweep.Diagnostics
import ConvSweep.Proofs.Json
import ConvSweep.Proofs.Lines

/-! # Diagnostics point at their parentheses

The report of a removal is a block of three lines: the place, the line of the source, and a caret.
The place tells the offset of the parenthesis, and the caret stands below the character at that
offset, whatever bytes, tabs and other blanks come before it on the line. A newline in the path would
be one more line, and the last of all offsets has a column only behind a newline.
-/

namespace ConvSweep

/-! ## Parts of texts -/

namespace Text

theorem exists_append_of_le {a b c d : String} (h : a ++ b = c ++ d)
    (hle : (bytes a).length ≤ (bytes c).length) : ∃ m, c = a ++ m ∧ b = m ++ d := by
  have hchars : a.toList ++ b.toList = c.toList ++ d.toList := by
    rw [← String.toList_append, h, String.toList_append]
  rcases List.append_eq_append_iff.mp hchars with ⟨m, hc, hb⟩ | ⟨m, ha, hd⟩
  · exact ⟨String.ofList m, by simp [← String.toList_inj, hc], by simp [← String.toList_inj, hb]⟩
  · have hm : m = [] := by
      have ha' : a = c ++ String.ofList m := by simp [← String.toList_inj, ha]
      have hlen : (bytes (String.ofList m)).length = 0 := by
        rw [ha', bytes_append, List.length_append] at hle
        omega
      rw [length_bytes, String.utf8ByteSize_eq_zero_iff] at hlen
      simpa using hlen
    subst hm
    simp only [List.append_nil, String.toList_inj, List.nil_append] at ha hd
    exact ⟨"", by simp [ha], by simp [hd]⟩

theorem before_append (s t : String) : before (s ++ t) (bytes s).length = s := by
  rw [before, bytes_append, List.take_left, ofBytes?_bytes, Option.getD_some]

theorem newline_mem_bytes {s : String} (h : '\n' ∈ s.toList) : LineIndex.newline ∈ bytes s := by
  rw [bytes_eq_flatMap, List.mem_flatMap]
  exact ⟨'\n', h, by decide⟩

theorem newline_notMem_before {s : String} (h : LineIndex.newline ∉ bytes s) (offset : Nat) :
    '\n' ∉ (before s offset).toList := by
  intro hmem
  have hbytes := newline_mem_bytes hmem
  unfold before at hbytes
  cases hread : ofBytes? ((bytes s).take offset) with
  | none => exact h (by simpa [hread] using hbytes)
  | some t =>
    rw [hread, Option.getD_some, ofBytes?_eq_some_iff.mp hread] at hbytes
    exact h (List.mem_of_mem_take hbytes)

end Text

theorem toList_blankOut (s : String) :
    (blankOut s).toList = s.toList.map fun c => if isBlank c then c else ' ' := by
  rw [blankOut, String.toList_ofList]

theorem newline_notMem_toString (n : Nat) : '\n' ∉ (toString n).toList := by
  change '\n' ∉ (String.ofList (Nat.toDigits 10 n)).toList
  rw [String.toList_ofList]
  intro h
  exact absurd (Nat.isDigit_of_mem_toDigits (by omega) (by omega) h) (by decide)

/-! ## Paths in messages -/

namespace Path

theorem subset_of_dropVerbatim (cs : List Char) : dropVerbatim cs ⊆ cs := by
  fun_induction dropVerbatim cs with
  | case1 cs ih =>
    intro c hc
    simp [ih hc]
  | case2 cs => exact List.Subset.refl cs

theorem newline_notMem_display {p : Path} (h : '\n' ∉ p.text.toList) : '\n' ∉ p.display.toList := by
  have hslashed : '\n' ∉ (dropVerbatim p.text.toList).map fun c => if c = '\\' then '/' else c := by
    rw [List.mem_map]
    rintro ⟨c, hc, hnewline⟩
    split at hnewline
    · exact absurd hnewline (by decide)
    · exact h (hnewline ▸ subset_of_dropVerbatim _ hc)
  rw [display, String.toList_ofList]
  split
  · rename_i cs hcs
    rw [hcs] at hslashed
    exact fun hmem => hslashed (List.mem_cons_of_mem _ (List.mem_cons_of_mem _ hmem))
  · exact hslashed

end Path

namespace Diagnostics

open Text

/-! ## Blocks -/

/-- What is reported of one removal. -/
structure Block where
  line : Nat
  col : Nat
  /-- The line of the source, as it is shown. -/
  text : String
  /-- What stands before the caret. -/
  margin : String

def Block.place (path : Path) (b : Block) : String := s!"{path.display}:{b.line}:{b.col}:"

theorem Block.place_eq (path : Path) (b : Block) : b.place path =
    path.display ++ ":" ++ toString b.line ++ ":" ++ toString b.col ++ ":" := rfl

def Block.lines (path : Path) (b : Block) : List String := [b.place path, b.text, b.margin ++ "^"]

def Block.shortLine (path : Path) (b : Block) : String := b.place path ++ " useless conversion"

/-- Lines as they are printed. -/
def unlines (lines : List String) : String := String.join (lines.map (· ++ "\n"))

/-- A text consists of these lines: cut at its newlines, it has them in this order, and nothing stands
behind the last newline. -/
def Prints (text : String) (lines : List String) : Prop :=
  text.toList.splitOn '\n' = lines.map String.toList ++ [[]]

theorem prints_unlines {lines : List String} (h : ∀ line ∈ lines, '\n' ∉ line.toList) :
    Prints (unlines lines) lines := by
  induction lines with
  | nil => rfl
  | cons line lines ih =>
    obtain ⟨hline, hlines⟩ := List.forall_mem_cons.mp h
    have hcut : (unlines (line :: lines)).toList = line.toList ++ '\n' :: (unlines lines).toList := by
      simp [unlines]
    have halone : line.toList.splitOn '\n' = [line.toList] := by
      refine List.splitOnP_eq_singleton fun c hc => beq_eq_false_iff_ne.mpr ?_
      rintro rfl
      exact hline hc
    have hrest : (unlines lines).toList.splitOn '\n' = lines.map String.toList ++ [[]] := ih hlines
    have hsplit : (line.toList ++ '\n' :: (unlines lines).toList).splitOn '\n' =
        line.toList.splitOn '\n' ++ (unlines lines).toList.splitOn '\n' :=
      List.splitOnP_append_cons _ _ (by decide)
    rw [Prints, hcut, hsplit, halone, hrest, List.singleton_append, List.map_cons, List.cons_append]

/-- The block reports the parenthesis at an offset. -/
structure Block.PointsAt (source : String) (lparen : Nat) (b : Block) : Prop where
  place : (LineIndex.ofText source).lineCol lparen = (b.line, b.col)
  line_eq : b.line = 1 + ((bytes source).take lparen).count LineIndex.newline
  /-- The line and the column determine the offset. -/
  only : ∀ offset < UInt64.size, (LineIndex.ofText source).lineCol offset = (b.line, b.col) →
    offset = lparen
  margin_plain : '\n' ∉ b.margin.toList ∧ '^' ∉ b.margin.toList
  /-- The text that is shown is the line of the source. Where the offset is between two characters of
  it, the margin is as long as what stands before the offset, with the same blanks. -/
  caret : ∃ before returns after, LineIndex.IsLine source b.line before b.text returns after ∧
    1 ≤ b.col ∧ (bytes before).length + b.col = lparen + 1 ∧
    ((String.Pos.Raw.mk lparen).IsValid source →
      lparen ≤ (bytes before).length + (bytes b.text).length →
      ∃ front back, b.text = front ++ back ∧ (bytes before).length + (bytes front).length = lparen ∧
        b.margin.toList.length = front.toList.length ∧
        ∀ (i : Nat) (c : Char), front.toList[i]? = some c →
          b.margin.toList[i]? = some (if isBlank c then c else ' '))

def block (source : String) (r : Removal) : Block :=
  let index := LineIndex.ofText source
  let (line, col) := index.lineCol r.lparen
  let text := (index.lineText source line).getD ""
  ⟨line, col, text, blankOut (Text.before text (col.toUInt64 - 1).toNat)⟩

theorem removal_eq_lines (path : Path) (source : String) (r : Removal) :
    removal path source (.ofText source) false r = unlines ((block source r).lines path) := by
  simp [removal, unlines, block, Block.lines, Block.place, String.append_assoc]

theorem removal_eq_shortLine (path : Path) (source : String) (r : Removal) :
    removal path source (.ofText source) true r = (block source r).shortLine path ++ "\n" := by
  simp [removal, block, Block.shortLine, Block.place, String.append_assoc]

/-! ## What a block points at -/

theorem exists_front {source before text after : String} {offset : Nat}
    (hsource : source = before ++ text ++ after) (hvalid : (String.Pos.Raw.mk offset).IsValid source)
    (hlo : (bytes before).length ≤ offset) (hhi : offset ≤ (bytes before).length + (bytes text).length) :
    ∃ front back, text = front ++ back ∧ (bytes before).length + (bytes front).length = offset := by
  obtain ⟨s, t, hst, hoffset⟩ := String.Pos.Raw.isValid_iff_exists_append.mp hvalid
  have hlen : (bytes s).length = offset := by
    rw [length_bytes]
    exact (congrArg String.Pos.Raw.byteIdx hoffset).symm
  rw [hst, String.append_assoc] at hsource
  obtain ⟨front, rfl, hrest⟩ := exists_append_of_le hsource.symm (by omega)
  rw [bytes_append, List.length_append] at hlen
  obtain ⟨back, hback, -⟩ := exists_append_of_le hrest.symm (by omega)
  exact ⟨front, back, hback, hlen⟩

theorem toNat_column_sub_one {start offset : Nat} (hlt : offset < UInt64.size) :
    ((offset - start + 1).toUInt64 - 1).toNat = offset - start := by
  have hsize : UInt64.size = 2 ^ 64 := rfl
  simp only [UInt64.toNat_sub, UInt64.toNat_one, Nat.toUInt64_eq, UInt64.toNat_ofNat']
  omega

theorem eq_of_lineCol_eq {source : String} {a b : Nat} (ha : LineIndex.HasColumn source a)
    (hlt : b < UInt64.size)
    (h : (LineIndex.ofText source).lineCol b = (LineIndex.ofText source).lineCol a) : b = a := by
  by_cases hb : LineIndex.HasColumn source b
  · rcases Nat.lt_trichotomy b a with hba | hba | hba
    · have := LineIndex.lineCol_lt hb ha hba
      rw [h] at this
      exact absurd this (lt_irrefl _)
    · exact hba
    · have := LineIndex.lineCol_lt ha hb hba
      rw [h] at this
      exact absurd this (lt_irrefl _)
  · -- An offset without a column is told by column 0.
    obtain ⟨start, -, -, hcol, -⟩ := LineIndex.exists_lineStart ha
    rw [(LineIndex.lineCol_of_not_hasColumn hlt hb).1, hcol, Prod.mk.injEq] at h
    omega

theorem pointsAt_block {source : String} {r : Removal} (h : LineIndex.HasColumn source r.lparen) :
    (block source r).PointsAt source r.lparen := by
  obtain ⟨start, hstart, hle, hcol, -⟩ := LineIndex.exists_lineStart h
  obtain ⟨before, text, returns, after, hline, hbefore, htext⟩ := LineIndex.exists_lineText hstart
  have hblock : block source r = ⟨(LineIndex.ofText source).line r.lparen, r.lparen - start + 1, text,
      blankOut (Text.before text (r.lparen - start))⟩ := by
    simp only [block, hcol, htext, Option.getD_some, toNat_column_sub_one h.1]
  rw [hblock]
  refine ⟨hcol, LineIndex.line_eq source r.lparen, fun offset hlt heq => ?_, ⟨?_, ?_⟩,
    before, returns, after, hline, Nat.le_add_left 1 _, by simp only; omega, ?_⟩
  · exact eq_of_lineCol_eq h hlt (heq.trans hcol.symm)
  · simp only [toList_blankOut, List.mem_map, not_exists, not_and]
    intro c hc hnewline
    split at hnewline
    · exact newline_notMem_before hline.plain _ (hnewline ▸ hc)
    · exact absurd hnewline (by decide)
  · simp only [toList_blankOut, List.mem_map, not_exists, not_and]
    intro c hc hcaret
    split at hcaret
    · rename_i hblank
      rw [hcaret] at hblank
      exact absurd hblank (by decide)
    · exact absurd hcaret (by decide)
  · intro hvalid hhi
    have hsource : source = before ++ text ++ (String.ofList (List.replicate returns '\r') ++ after) := by
      rw [hline.whole, String.append_assoc, String.append_assoc, String.append_assoc]
    subst hbefore
    -- The offset is a boundary of the source, so it is one of the line that is shown.
    obtain ⟨front, back, rfl, hfront⟩ := exists_front hsource hvalid hle hhi
    have hmargin : Text.before (front ++ back) (r.lparen - (bytes before).length) = front := by
      rw [← hfront, Nat.add_sub_cancel_left, before_append]
    refine ⟨front, back, rfl, hfront, ?_, ?_⟩
    · rw [hmargin, toList_blankOut, List.length_map]
    · intro i c hc
      rw [hmargin, toList_blankOut, List.getElem?_map, hc, Option.map_some]

theorem Block.place_injective {path : Path} {b b' : Block} (h : b.place path = b'.place path) :
    b.line = b'.line ∧ b.col = b'.col := by
  have hcolon : bytes ":" = [0x3a] := by decide
  -- Digits are read up to the first colon.
  have hread : ∀ (n : Nat) (rest : List UInt8), Json.Reader.digits (bytes (toString n) ++ 0x3a :: rest) =
      (Json.decimalDigits n, 0x3a :: rest) := by
    intro n rest
    rw [Json.bytes_toString]
    exact Json.digits_map_append (fun d hd => Json.lt_ten_of_mem_decimalDigits hd)
      (by simp [Json.Reader.digit?])
  have hbytes : ∀ b : Block, bytes (b.place path) = bytes (path.display ++ ":") ++
      (bytes (toString b.line) ++ 0x3a :: (bytes (toString b.col) ++ [0x3a])) := by
    intro b
    simp only [place_eq, bytes_append, hcolon, List.append_assoc, List.cons_append, List.nil_append]
  have heq := congrArg bytes h
  rw [hbytes, hbytes, List.append_cancel_left_eq] at heq
  have hline := congrArg Json.Reader.digits heq
  rw [hread, hread, Prod.mk.injEq, List.cons.injEq] at hline
  have hcol := congrArg Json.Reader.digits hline.2.2
  rw [hread, hread, Prod.mk.injEq] at hcol
  constructor
  · rw [← Json.ofDigits_decimalDigits b.line, hline.1, Json.ofDigits_decimalDigits]
  · rw [← Json.ofDigits_decimalDigits b.col, hcol.1, Json.ofDigits_decimalDigits]

theorem Block.newline_notMem_place {path : Path} (hpath : '\n' ∉ path.text.toList) (b : Block) :
    '\n' ∉ (b.place path).toList := by
  have hcolon : '\n' ∉ ":".toList := by decide
  simp only [place_eq, String.toList_append, List.mem_append, hcolon, newline_notMem_toString,
    Path.newline_notMem_display hpath, or_self, not_false_eq_true]

theorem Block.PointsAt.newline_notMem_lines {path : Path} {source : String} {lparen : Nat} {b : Block}
    (hpath : '\n' ∉ path.text.toList) (h : b.PointsAt source lparen) :
    ∀ line ∈ b.lines path, '\n' ∉ line.toList := by
  obtain ⟨before, returns, after, hline, -⟩ := h.caret
  have hcaret : '\n' ∉ "^".toList := by decide
  intro line hmem
  simp only [Block.lines, List.mem_cons, List.not_mem_nil, or_false] at hmem
  rcases hmem with rfl | rfl | rfl
  · exact newline_notMem_place hpath b
  · exact fun hnewline => hline.plain (newline_mem_bytes hnewline)
  · rw [String.toList_append, List.mem_append, not_or]
    exact ⟨h.margin_plain.1, hcaret⟩

/-! ## The reports of a file -/

theorem lparen_le_of_key_lt {r r' : Removal} (h : r.key < r'.key) : r.lparen ≤ r'.lparen := by
  rcases List.cons_lt_cons_iff.mp h with h | ⟨h, -⟩
  · exact Nat.le_of_lt h
  · exact Nat.le_of_eq h

theorem unlines_flatMap (path : Path) (blocks : List Block) :
    unlines (blocks.flatMap (·.lines path)) = String.join (blocks.map fun b => unlines (b.lines path)) := by
  induction blocks with
  | nil => rfl
  | cons b blocks ih =>
    rw [List.flatMap_cons, List.map_cons, String.join_cons, ← ih, unlines, List.map_append,
      String.join_append]
    rfl

/-- What is printed about a file: a block of three lines for every removal, in the order of the
parentheses, or one line for each, with the same places. -/
structure Reports (path : Path) (source : String) (removals : RemovalSet) (blocks : List Block) :
    Prop where
  long : Prints (file path source removals false) (blocks.flatMap (·.lines path))
  short : Prints (file path source removals true) (blocks.map (·.shortLine path))
  ordered : removals.toList.Pairwise fun r r' => r.lparen ≤ r'.lparen
  points : List.Forall₂ (fun r b => b.PointsAt source r.lparen) removals.toList blocks
  /-- A place is read back from its line. -/
  places : ∀ b ∈ blocks, ∀ b' ∈ blocks, b.place path = b'.place path → b.line = b'.line ∧ b.col = b'.col

theorem file_eq_unlines (path : Path) (source : String) (removals : RemovalSet) :
    file path source removals false =
      unlines ((removals.toList.map (block source)).flatMap (·.lines path)) := by
  rw [unlines_flatMap, List.map_map, file]
  refine congrArg String.join (List.map_congr_left fun r _ => ?_)
  rw [removal_eq_lines, Function.comp_apply]

theorem file_eq_unlines_short (path : Path) (source : String) (removals : RemovalSet) :
    file path source removals true =
      unlines ((removals.toList.map (block source)).map (·.shortLine path)) := by
  rw [unlines, List.map_map, List.map_map, file]
  refine congrArg String.join (List.map_congr_left fun r _ => ?_)
  rw [removal_eq_shortLine, Function.comp_apply, Function.comp_apply]

/-- Where the path has no newline and every parenthesis a column, each removal is reported in three lines
that point at its parenthesis, or in a single one with the same place, in the order of the
parentheses. -/
theorem diagnostics_point_at_parens {path : Path} {source : String} {removals : RemovalSet}
    (hpath : '\n' ∉ path.text.toList)
    (hcolumns : ∀ r ∈ removals.toList, LineIndex.HasColumn source r.lparen) :
    ∃ blocks, Reports path source removals blocks := by
  have hpoints : ∀ r ∈ removals.toList, (block source r).PointsAt source r.lparen :=
    fun r hr => pointsAt_block (hcolumns r hr)
  refine ⟨removals.toList.map (block source), ?_, ?_, removals.sorted.imp lparen_le_of_key_lt, ?_,
    fun b _ b' _ => Block.place_injective⟩
  · rw [file_eq_unlines]
    refine prints_unlines fun line hline => ?_
    rw [List.flatMap_map, List.mem_flatMap] at hline
    obtain ⟨r, hr, hline⟩ := hline
    exact (hpoints r hr).newline_notMem_lines hpath line hline
  · rw [file_eq_unlines_short]
    refine prints_unlines fun line hline => ?_
    have hmessage : '\n' ∉ " useless conversion".toList := by decide
    obtain ⟨b, -, rfl⟩ := List.mem_map.mp hline
    rw [Block.shortLine, String.toList_append, List.mem_append, not_or]
    exact ⟨Block.newline_notMem_place hpath b, hmessage⟩
  · rw [List.forall₂_map_right_iff, List.forall₂_same]
    exact hpoints

/-- A line with a tab and a character of two bytes before the parenthesis, and a removal whose offset is
past the end. -/
theorem tabbedLine_reported :
    '\n' ∉ "./p/f.go".toList ∧
      (∀ r ∈ (RemovalSet.ofList [⟨21, []⟩, ⟨99, []⟩]).toList,
        LineIndex.HasColumn "package p\n\t_ = é(int(y))\r\n" r.lparen) ∧
      (∃ blocks, Reports ⟨"./p/f.go"⟩ "package p\n\t_ = é(int(y))\r\n" (.ofList [⟨21, []⟩, ⟨99, []⟩])
        blocks) ∧
      file ⟨"./p/f.go"⟩ "package p\n\t_ = é(int(y))\r\n" (.ofList [⟨21, []⟩, ⟨99, []⟩]) false =
        "p/f.go:2:12:\n\t_ = é(int(y))\n\t         ^\np/f.go:3:73:\n\n^\n" := by
  have hplain : '\n' ∉ "./p/f.go".toList := by decide
  have hcolumns : ∀ r ∈ (RemovalSet.ofList [⟨21, []⟩, ⟨99, []⟩]).toList,
      LineIndex.HasColumn "package p\n\t_ = é(int(y))\r\n" r.lparen := by decide
  exact ⟨hplain, hcolumns, diagnostics_point_at_parens hplain hcolumns, by decide +kernel⟩

/-- A newline in the path makes four lines of a block, and an offset without a column is reported in
column 0, with the caret behind the line. -/
theorem pathNewline_prints_four_lines :
    Prints (file ⟨"a\nb.go"⟩ "x" (.ofList [⟨0, []⟩]) false) ["a", "b.go:1:1:", "x", "^"] ∧
      Prints (file ⟨"a.go"⟩ "x" (.ofList [⟨18446744073709551615, []⟩]) false) ["a.go:1:0:", "x", " ^"] ∧
      (LineIndex.ofText "x").lineCol? 18446744073709551615 = none := by
  unfold Prints
  decide +kernel

end Diagnostics

end ConvSweep
