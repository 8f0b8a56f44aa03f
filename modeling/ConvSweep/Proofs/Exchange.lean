import ConvSweep.Program
import ConvSweep.Proofs.Json
import ConvSweep.Proofs.Merge

/-! # Edit sets between processes

An edit set that is written as JSON is read back without its empty entries, which nobody sees. So
sets that are written by one process and merged by another agree with sets that are merged in
place.
-/

namespace ConvSweep

open Json

/-! ## Reading a written set -/

/-- Both ends have a place in 64 bits. -/
def Edit.Storable (e : Edit) : Prop := e.start < Number.limit ∧ e.stop < Number.limit

def Removal.Storable (r : Removal) : Prop := r.lparen < Number.limit ∧ ∀ e ∈ r.edits, e.Storable

/-- Every offset in the set has a place in 64 bits. -/
def EditSet.Storable (set : EditSet) : Prop := ∀ x ∈ set.entries, ∀ r ∈ x.2.toList, r.Storable

theorem Edit.reads {e : Edit} (h : e.Storable) (depth : Nat) : Reads ofJson (e.toJson depth) e := by
  obtain ⟨v, hv, hstart⟩ := reads_nat h.1
  obtain ⟨w, hw, hstop⟩ := reads_nat h.2
  refine ⟨.object [(.ok "start", v), (.ok "end", w)] .closed,
    spells_object (.cons ⟨rfl, hv⟩ (.cons ⟨rfl, hw⟩ .nil)), ?_⟩
  have hfields : Value.toRecord fields (none, none)
      (.object [(.ok "start", v), (.ok "end", w)] .closed) = .ok (some e.start, some e.stop) := by
    simp [fields, Value.toRecord, Value.readMembers, hstart, hstop]
    rfl
  unfold ofJson
  rw [hfields]
  rfl

theorem Removal.reads {r : Removal} (h : r.Storable) (depth : Nat) :
    Reads ofJson (r.toJson depth) r := by
  obtain ⟨v, hv, hlparen⟩ := reads_nat h.1
  obtain ⟨w, hw, hedits⟩ := reads_array (fun e he => Edit.reads (h.2 e he) (depth + 2)) (depth + 1)
  refine ⟨.object [(.ok "lparen", v), (.ok "edits", w)] .closed,
    spells_object (.cons ⟨rfl, hv⟩ (.cons ⟨rfl, hw⟩ .nil)), ?_⟩
  have hfields : Value.toRecord fields (none, none)
      (.object [(.ok "lparen", v), (.ok "edits", w)] .closed) =
        .ok (some r.lparen, some r.edits) := by
    simp [fields, Value.toRecord, Value.readMembers, hlparen, hedits]
    rfl
  unfold ofJson
  rw [hfields]
  rfl

theorem RemovalSet.eq_of_mem_iff {s t : RemovalSet} (h : ∀ r, r ∈ s.toList ↔ r ∈ t.toList) :
    s = t := by
  have hlist := toList_ext h
  cases s
  cases t
  subst hlist
  rfl

theorem RemovalSet.ofList_toList (s : RemovalSet) : ofList s.toList = s :=
  eq_of_mem_iff fun _ => mem_ofList

namespace EditSet

variable {set a b : EditSet} {p : Path} {s : RemovalSet} {r : Removal}

theorem ext_entries (h : a.entries = b.entries) : a = b := by
  cases a
  cases b
  subst h
  rfl

theorem alterEntries_of_lt {f : Option RemovalSet → RemovalSet} {es : List (Path × RemovalSet)}
    (h : ∀ x ∈ es, x.1.key < p.key) : alterEntries p f es = es ++ [(p, f none)] := by
  induction es with
  | nil => rfl
  | cons x es ih =>
    have hx : x.1.key < p.key := h x (by simp)
    rw [alterEntries, if_neg (lt_asymm hx), if_pos hx, ih fun y hy => h y (by simp [hy])]
    rfl

theorem entries_foldl_put {es : List (Path × RemovalSet)}
    (hes : (set.entries ++ es).Pairwise fun x y => x.1.key < y.1.key) :
    (es.foldl (fun set x => set.put x.1 x.2) set).entries = set.entries ++ es := by
  induction es generalizing set with
  | nil => simp
  | cons x es ih =>
    have hput : (set.put x.1 x.2).entries = set.entries ++ [x] :=
      alterEntries_of_lt fun y hy => (List.pairwise_append.mp hes).2.2 y hy x (by simp)
    rw [List.foldl_cons, ih (by simpa [hput] using hes), hput]
    simp

theorem ofFiles_files (set : EditSet) :
    ofFiles (set.files.map fun x => (x.1.text, x.2.toList)) = set.compact := by
  apply ext_entries
  unfold ofFiles
  rw [List.foldl_map]
  simp only [RemovalSet.ofList_toList]
  exact @entries_foldl_put empty _ set.compact.sorted

theorem compact_compact (set : EditSet) : set.compact.compact = set.compact := by
  apply ext_entries
  simp [compact]

theorem files_compact (set : EditSet) : set.compact.files = set.files := by
  simp [compact, files]

theorem reads_write (h : set.Storable) : Reads ofJson set.write set.compact := by
  have hfiles : ∀ x ∈ set.files.map fun x => (x.1.text, x.2.toList),
      Reads (Value.toList Removal.ofJson) (Writer.array 2 (x.2.map (Removal.toJson 3))) x.2 := by
    intro x hx
    obtain ⟨y, hy, rfl⟩ := List.mem_map.mp hx
    exact reads_array (fun r hr => Removal.reads (h y (List.mem_of_mem_filter hy) r hr) 3) 2
  obtain ⟨v, hv, hmembers⟩ :=
    @reads_members (List Removal) _ (fun rs => Writer.array 2 (rs.map (Removal.toJson 3))) _
      hfiles 1
  rw [List.map_map] at hv
  refine ⟨.object [(.ok "files", v)] .closed, spells_object (.cons ⟨rfl, hv⟩ .nil), ?_⟩
  have hfields : Value.toRecord fields none (.object [(.ok "files", v)] .closed) =
      .ok (some set.compact) := by
    simp [fields, Value.toRecord, Value.readMembers, hmembers, ofFiles_files]
    rfl
  unfold ofJson
  rw [hfields]
  exact congrArg Except.ok set.compact_compact

theorem read_write (h : set.Storable) : read (Text.bytes set.write) = .ok set.compact :=
  (reads_write h).decode

theorem same_compact (set : EditSet) : set.compact.same set = true := by
  unfold same
  rw [files_compact]
  exact beq_self_eq_true _

theorem has_compact : set.compact.Has p r ↔ set.Has p r := same_iff.mp set.same_compact p r

theorem files_eq_of_same (h : a.same b = true)
    (hpaths : a.files.map (·.1.text) = b.files.map (·.1.text)) : a.files = b.files := by
  have hview : a.view = b.view := beq_iff_eq.mp h
  have hlists : a.files.map (·.2.toList) = b.files.map (·.2.toList) := by
    simpa [view, Function.comp_def] using congrArg (List.map Prod.snd) hview
  generalize a.files = xs at hpaths hlists
  generalize b.files = ys at hpaths hlists
  induction xs generalizing ys with
  | nil => simpa using hpaths.symm
  | cons x xs ih =>
    cases ys with
    | nil => simp at hpaths
    | cons y ys =>
      simp only [List.map_cons, List.cons.injEq] at hpaths hlists
      have hset : x.2 = y.2 := RemovalSet.eq_of_mem_iff fun r => by rw [hlists.1]
      have hpath : x.1 = y.1 := congrArg Path.mk hpaths.1
      rw [Prod.ext hpath hset, ih ys hpaths.2 hlists.2]

/-- A written set is read back with all that is visible of it, and two sets are written alike
exactly if they are the same under the same spellings. -/
theorem written_set_reads_back (ha : a.Storable) (hb : b.Storable) :
    (∃ back, read (Text.bytes a.write) = .ok back ∧ back.same a = true ∧ back.files = a.files) ∧
      (Text.bytes a.write = Text.bytes b.write ↔
        a.same b = true ∧ a.files.map (·.1.text) = b.files.map (·.1.text)) := by
  refine ⟨⟨a.compact, read_write ha, a.same_compact, a.files_compact⟩, ?_, ?_⟩
  · intro h
    have hread := read_write ha
    rw [h, read_write hb, Except.ok.injEq] at hread
    have hfiles : a.files = b.files := by rw [← files_compact, ← hread, files_compact]
    refine ⟨?_, by rw [hfiles]⟩
    unfold same
    rw [hfiles]
    exact beq_self_eq_true _
  · rintro ⟨hsame, hpaths⟩
    unfold write
    rw [files_eq_of_same hsame hpaths]

/-- A path that needs every kind of escape, the greatest offset, and an entry that vetoes a file. -/
def oddlyNamed : EditSet where
  entries := [(⟨"a\"\\\n\x01é.go"⟩, ⟨[⟨3, [⟨0, 3⟩, ⟨18446744073709551615, 7⟩]⟩], by simp⟩),
    (⟨"b.go"⟩, .empty)]
  sorted := by decide

theorem storable_oddlyNamed : oddlyNamed.Storable := by
  simp [Storable, oddlyNamed, Removal.Storable, Edit.Storable, Number.limit, RemovalSet.empty]

theorem oddlyNamed_reads_back :
    oddlyNamed.Storable ∧ oddlyNamed.compact.Storable ∧
      oddlyNamed.entries ≠ oddlyNamed.compact.entries ∧
      (∃ back, read (Text.bytes oddlyNamed.write) = .ok back ∧ back.same oddlyNamed = true ∧
        back.files = oddlyNamed.files) ∧
      Text.bytes oddlyNamed.write = Text.bytes oddlyNamed.compact.write := by
  have hcompact : oddlyNamed.compact.Storable := by
    intro x hx
    exact storable_oddlyNamed x (List.mem_filter.mp hx).1
  have hhidden : oddlyNamed.entries ≠ oddlyNamed.compact.entries := by
    intro h
    have hlength := congrArg List.length h
    simp [oddlyNamed, compact, RemovalSet.isEmpty, RemovalSet.empty] at hlength
  obtain ⟨hback, hbytes⟩ := written_set_reads_back storable_oddlyNamed hcompact
  exact ⟨storable_oddlyNamed, hcompact, hhidden, hback,
    hbytes.mpr ⟨by decide, by rw [files_compact]⟩⟩

end EditSet

/-! ## Merging written sets -/

theorem EditSet.has_foldl_inter {sets : List EditSet} {set : EditSet} {p : Path} {r : Removal} :
    (sets.foldl inter set).Has p r ↔ set.Has p r ∧ ∀ s ∈ sets, s.Has p r := by
  induction sets generalizing set with
  | nil => simp
  | cons s sets ih =>
    rw [List.foldl_cons, ih, has_inter]
    simp [and_assoc]

theorem foldlM_inter {ι ε : Type} {next : ι → Except ε EditSet} {is : List ι} {sets : List EditSet}
    (h : List.Forall₂ (fun i s => next i = .ok s) is sets) (start : EditSet) :
    is.foldlM (fun merged i => do return merged.inter (← next i)) start =
      .ok (sets.foldl EditSet.inter start) := by
  induction h generalizing start with
  | nil => rfl
  | cons hs _ ih =>
    rw [List.foldlM_cons, hs]
    exact ih _

namespace Program

variable {tree : FileTree} {paths : List Path} {p : Path} {r : Removal}

theorem loadMerged_eq {q : Path} {qs : List Path} {start : EditSet} {sets : List EditSet}
    (hstart : load tree q = .ok start)
    (hsets : List.Forall₂ (fun q s => load tree q = .ok s) qs sets) :
    loadMerged tree (q :: qs) = .ok (sets.foldl EditSet.inter start) := by
  simp only [loadMerged, hstart]
  exact foldlM_inter hsets start

theorem loadMerged_ok (hne : paths ≠ []) (h : ∀ q ∈ paths, ∃ set, load tree q = .ok set) :
    ∃ merged, loadMerged tree paths = .ok merged ∧
      ∀ p r, merged.Has p r ↔ ∀ q ∈ paths, ∀ set, load tree q = .ok set → set.Has p r := by
  have : Nonempty EditSet := ⟨.empty⟩
  choose! loaded hloaded using h
  obtain ⟨q, qs, rfl⟩ := List.exists_cons_of_ne_nil hne
  refine ⟨(qs.map loaded).foldl EditSet.inter (loaded q),
    loadMerged_eq (hloaded q (by simp)) ?_, ?_⟩
  · rw [List.forall₂_map_right_iff, List.forall₂_same]
    exact fun x hx => hloaded x (by simp [hx])
  · intro p r
    have hset : ∀ x ∈ q :: qs, ((∀ set, load tree x = .ok set → set.Has p r) ↔
        (loaded x).Has p r) := by
      intro x hx
      simp [hloaded x hx]
    rw [EditSet.has_foldl_inter, List.forall_mem_map, forall₂_congr hset, List.forall_mem_cons]

/-- The file at the path is the written form of the set. -/
def Holds (tree : FileTree) (x : Path × EditSet) : Prop :=
  x.2.Storable ∧ tree.read x.1 = .ok (Text.bytes x.2.write)

theorem Holds.load {x : Path × EditSet} (h : Holds tree x) : load tree x.1 = .ok x.2.compact := by
  unfold Program.load
  rw [h.2]
  simp only [EditSet.read_write h.1]

/-- Written sets merge to what the sets themselves merge to: the removals that all of them show,
whatever the order of the files and however often they are named. -/
theorem loadMerged_same_as_inter {first : Path × EditSet} {rest : List (Path × EditSet)}
    (h : ∀ x ∈ first :: rest, Holds tree x) :
    ∃ merged, loadMerged tree ((first :: rest).map (·.1)) = .ok merged ∧
      merged.same ((rest.map (·.2)).foldl EditSet.inter first.2) = true ∧
      (∀ p r, merged.Has p r ↔ ∀ x ∈ first :: rest, x.2.Has p r) ∧
      (∀ paths, (∀ q, q ∈ paths ↔ q ∈ (first :: rest).map (·.1)) →
        ∃ merged', loadMerged tree paths = .ok merged' ∧ merged'.same merged = true) ∧
      ∀ (a : Analysis) (frontEnd : FrontEnd),
        List.Forall₂ (fun config x => a.computeEdits frontEnd config = .ok x.2) a.configs
          (first :: rest) →
        ∃ set, a.mergeInOrder frontEnd = .ok set ∧ merged.same set = true := by
  have hload : ∀ q ∈ (first :: rest).map (·.1), ∃ set, load tree q = .ok set := by
    intro q hq
    obtain ⟨x, hx, rfl⟩ := List.mem_map.mp hq
    exact ⟨_, (h x hx).load⟩
  obtain ⟨merged, hmerged, hloaded⟩ := loadMerged_ok (by simp) hload
  have hhas : ∀ p r, merged.Has p r ↔ ∀ x ∈ first :: rest, x.2.Has p r := by
    intro p r
    rw [hloaded, List.forall_mem_map]
    refine forall₂_congr fun x hx => ?_
    -- A written set is read back without the paths that have no removals.
    simp [(h x hx).load, EditSet.has_compact]
  have hsame : merged.same ((rest.map (·.2)).foldl EditSet.inter first.2) = true := by
    rw [EditSet.same_iff]
    intro p r
    rw [hhas, EditSet.has_foldl_inter, List.forall_mem_cons, List.forall_mem_map]
  refine ⟨merged, hmerged, hsame, hhas, ?_, ?_⟩
  · intro paths hpaths
    have hne : paths ≠ [] := List.ne_nil_of_mem ((hpaths first.1).mpr (by simp))
    obtain ⟨merged', hmerged', hloaded'⟩ :=
      loadMerged_ok hne fun q hq => hload q ((hpaths q).mp hq)
    refine ⟨merged', hmerged', EditSet.same_iff.mpr fun p r => ?_⟩
    rw [hloaded', hloaded]
    simp only [hpaths]
  · intro a frontEnd hconfigs
    refine ⟨_, ?_, hsame⟩
    unfold Analysis.mergeInOrder
    generalize a.configs = configs at hconfigs
    cases hconfigs with
    | cons hfirst hrest =>
      simp only [hfirst]
      exact foldlM_inter (List.forall₂_map_right_iff.mpr hrest) first.2

/-- The removal of `EditSet.oddlyNamed` among others; the entry of `b.go` is vetoed there. -/
def plainlyNamed : EditSet where
  entries := [(⟨"a\"\\\n\x01é.go"⟩,
      ⟨[⟨3, [⟨0, 3⟩, ⟨18446744073709551615, 7⟩]⟩, ⟨4, []⟩], by decide⟩),
    (⟨"b.go"⟩, ⟨[⟨1, []⟩], by simp⟩)]
  sorted := by decide

/-- Both sets as files of the working directory. -/
def exchangeTree : FileTree :=
  ⟨["w"], [(["w", "linux.json"], Text.bytes EditSet.oddlyNamed.write),
    (["w", "windows.json"], Text.bytes plainlyNamed.write)], []⟩

theorem exchangeTree_merges_common_removal :
    Holds exchangeTree (⟨"linux.json"⟩, .oddlyNamed) ∧
      Holds exchangeTree (⟨"windows.json"⟩, plainlyNamed) ∧
      ∃ merged, loadMerged exchangeTree [⟨"linux.json"⟩, ⟨"windows.json"⟩] = .ok merged ∧
        merged.same (EditSet.oddlyNamed.inter plainlyNamed) = true ∧
        merged.Has ⟨"a\"\\\n\x01é.go"⟩ ⟨3, [⟨0, 3⟩, ⟨18446744073709551615, 7⟩]⟩ ∧
        ¬ merged.Has ⟨"b.go"⟩ ⟨1, []⟩ ∧
        ∃ merged', loadMerged exchangeTree
            [⟨"windows.json"⟩, ⟨"linux.json"⟩, ⟨"windows.json"⟩] = .ok merged' ∧
          merged'.same merged = true := by
  have hlinux : Holds exchangeTree (⟨"linux.json"⟩, .oddlyNamed) :=
    ⟨EditSet.storable_oddlyNamed, rfl⟩
  have hwindows : Holds exchangeTree (⟨"windows.json"⟩, plainlyNamed) := by
    refine ⟨?_, rfl⟩
    simp [EditSet.Storable, plainlyNamed, Removal.Storable, Edit.Storable, Number.limit]
  obtain ⟨merged, hmerged, hsame, hhas, hpaths, -⟩ :=
    @loadMerged_same_as_inter exchangeTree (⟨"linux.json"⟩, .oddlyNamed)
      [(⟨"windows.json"⟩, plainlyNamed)] (by simp [hlinux, hwindows])
  refine ⟨hlinux, hwindows, merged, hmerged, hsame, ?_, ?_, hpaths _ (by simp)⟩
  · rw [hhas, List.forall_mem_cons, List.forall_mem_singleton, EditSet.has_iff_mem,
      EditSet.has_iff_mem]
    exact ⟨⟨_, List.mem_cons_self, rfl, by decide⟩, ⟨_, List.mem_cons_self, rfl, by decide⟩⟩
  · rw [hhas]
    intro h
    have hveto := h _ List.mem_cons_self
    simp [EditSet.has_iff_mem, EditSet.oddlyNamed, RemovalSet.empty] at hveto

end Program

end ConvSweep
