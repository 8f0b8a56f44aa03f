import Mathlib
import ConvSweep.Proofs.Paths
import ConvSweep.Settings.Search

/-! # Where settings are found

A search looks into the directories that the spelling of a path leads through. Where these are the
directories around the one the path leads to, as for every absolute path without `..`, the settings
are those of the nearest of them; where they are not, some files make a difference.
-/

namespace ConvSweep

/-! ## Climbing -/

/-- What a function makes of the beginnings of a list, the longest first. -/
def climb {α β : Type} (f : List α → β) (ns : List α) : List β := (ns.inits.map f).reverse

section

variable {α β : Type} {f : List α → β}

@[simp] theorem climb_nil : climb f [] = [f []] := rfl

@[simp] theorem climb_concat (ns : List α) (n : α) :
    climb f (ns ++ [n]) = f (ns ++ [n]) :: climb f ns := by
  simp [climb, List.inits_append]

theorem head?_climb (ns : List α) : (climb f ns).head? = some (f ns) := by
  rcases List.eq_nil_or_concat ns with rfl | ⟨init, last, rfl⟩
  · rfl
  · simp

theorem mem_climb {ns : List α} {b : β} : b ∈ climb f ns ↔ ∃ before, before <+: ns ∧ f before = b := by
  simp [climb]

end

/-- Every place is at most one name longer than the next one. -/
def Descends (ds : List Place) : Prop := ds.IsChain fun d e => d.length ≤ e.length + 1

theorem descends_climb {α : Type} {f : List α → Place}
    (h : ∀ ns n, (f (ns ++ [n])).length ≤ (f ns).length + 1) (ns : List α) : Descends (climb f ns) := by
  induction ns using List.reverseRecOn with
  | nil => exact List.isChain_singleton _
  | append_singleton ns n ih =>
    rw [climb_concat]
    refine List.IsChain.cons ih ?_
    intro next hnext
    rw [head?_climb, Option.mem_some_iff] at hnext
    exact hnext ▸ h ns n

theorem Descends.exists_length {before after : List Place} {d first : Place}
    (h : Descends (before ++ d :: after)) (hfirst : (before ++ d :: after).head? = some first) {n : Nat}
    (hlo : d.length < n) (hhi : n ≤ first.length) : ∃ e ∈ before, e.length = n := by
  induction before generalizing first with
  | nil =>
    obtain rfl : d = first := by simpa using hfirst
    omega
  | cons b before ih =>
    obtain rfl : b = first := by simpa using hfirst
    by_cases heq : b.length = n
    · exact ⟨b, List.mem_cons_self, heq⟩
    · obtain ⟨next, hnext⟩ : ∃ next, (before ++ d :: after).head? = some next := by
        cases before <;> simp
      have hstep : b.length ≤ next.length + 1 := h.rel_head? hnext
      obtain ⟨e, he, hlen⟩ := ih h.tail hnext (by omega)
      exact ⟨e, List.mem_cons_of_mem _ he, hlen⟩

theorem findSome?_eq_some_iff_longest {β : Type} {ds : List Place} {dir : Place} {f : Place → Option β}
    {v : β} (h : Descends ds) (hhead : ds.head? = some dir) (hmem : ∀ d, d ∈ ds ↔ d <+: dir) :
    ds.findSome? f = some v ↔
      ∃ d, d <+: dir ∧ f d = some v ∧ ∀ e, e <+: dir → d.length < e.length → f e = none := by
  have heq : ∀ {d e : Place}, d <+: dir → e <+: dir → d.length = e.length → d = e := by
    intro d e hd he hlen
    exact (List.prefix_of_prefix_length_le hd he (Nat.le_of_eq hlen)).eq_of_length hlen
  have hfirst : ∀ {v}, ds.findSome? f = some v →
      ∃ d, d <+: dir ∧ f d = some v ∧ ∀ e, e <+: dir → d.length < e.length → f e = none := by
    intro v hv
    obtain ⟨before, d, after, rfl, hd, hnone⟩ := List.findSome?_eq_some_iff.mp hv
    refine ⟨d, (hmem d).mp (by simp), hd, fun e he hlt => ?_⟩
    -- On the way down from `dir` to `d` the length of `e` is passed, and only `e` has it.
    obtain ⟨x, hx, hlen⟩ := h.exists_length hhead hlt he.length_le
    have hxe : x = e := heq ((hmem x).mp (List.mem_append_left _ hx)) he hlen
    exact hxe ▸ hnone x hx
  refine ⟨hfirst, ?_⟩
  rintro ⟨d, hd, hv, hlonger⟩
  cases hfind : ds.findSome? f with
  | none =>
    rw [List.findSome?_eq_none_iff.mp hfind d ((hmem d).mpr hd)] at hv
    cases hv
  | some w =>
    obtain ⟨e, he, hw, hlonger'⟩ := hfirst hfind
    obtain hlt | hlen | hlt := Nat.lt_trichotomy d.length e.length
    · simp [hlonger e he hlt] at hw
    · rw [← hw, ← heq hd he hlen, hv]
    · simp [hlonger' d hd hlt] at hv

namespace Settings

open FileTree (step origin)

/-! ## What a search reads -/

/-- The settings in a directory, if there are any that can be read. -/
def settingsAt? (t : FileTree) (dir : Place) : Option Settings :=
  match t.entry (dir ++ [fileName]) with
  | .file content => (Text.ofBytes? content).bind read?
  | _ => none

/-- The settings of the nearest directory, among a directory and those around it, that has any. -/
def nearest (t : FileTree) (dir : Place) : Settings :=
  ((climb id dir).findSome? (settingsAt? t)).getD .default

/-- The directories that a path leads through, the last first. -/
def passed (t : FileTree) (start : Path) : List Place :=
  climb (fun ns => ns.foldl step (t.origin start)) start.names

/-- The bytes that the name of the settings file adds to a path. -/
def nameSize : Nat := ("/" ++ fileName).utf8ByteSize

theorem readFile?_eq {t : FileTree} {p : Path} {dir : Place}
    (h : t.resolve p = .ok (dir ++ [fileName])) : readFile? t p = settingsAt? t dir := by
  unfold readFile? settingsAt? FileTree.readText FileTree.read
  simp only [h, bind, Except.bind]
  cases t.entry (dir ++ [fileName]) with
  | file content =>
    simp only [pure, Except.pure, decodeText]
    cases Text.ofBytes? content <;> rfl
  | directory => rfl
  | nothing => rfl

theorem hasEntry_of_readFile? {t : FileTree} {p : Path} {s : Settings} (h : readFile? t p = some s) :
    t.hasEntry p = true := by
  unfold readFile? FileTree.readText FileTree.read at h
  unfold FileTree.hasEntry
  cases hp : t.resolve p with
  | error e => simp [hp, bind, Except.bind] at h
  | ok place =>
    simp only [hp, bind, Except.bind] at h
    cases hentry : t.entry place <;> simp_all [throw, throwThe, MonadExceptOf.throw]

theorem settings_searchIn (t : FileTree) (dirs : List Path) :
    (searchIn t dirs).settings =
      (dirs.findSome? fun dir => readFile? t (dir.join fileName)).getD .default := by
  induction dirs with
  | nil => rfl
  | cons dir dirs ih =>
    rw [searchIn, List.findSome?_cons]
    cases hread : readFile? t (dir.join fileName) with
    | some s => simp [hasEntry_of_readFile? hread]
    | none =>
      simp only
      split
      · exact ih
      · exact ih

theorem resolve_join {t : FileTree} {p : Path} (hnul : '\x00' ∉ p.text.toList)
    (hroom : p.text.utf8ByteSize + nameSize ≤ FileTree.maxPathSize)
    (hpass : t.Passable (t.origin p) p.names) :
    t.resolve (p.join fileName) = .ok (p.names.foldl step (t.origin p) ++ [fileName]) := by
  obtain ⟨parts, hparts, hnamed⟩ := p.exists_parts_join fileName (by decide)
  have habs : (p.join fileName).isAbsolute = p.isAbsolute := p.isAbsolute_join fileName (by decide)
  have hfollow : t.follow (t.origin p) (parts ++ [fileName.toList]) =
      .ok (p.names.foldl step (t.origin p) ++ [fileName]) := by
    rw [← hnamed] at hpass ⊢
    obtain ⟨hok, hdir⟩ := FileTree.follow_directory_iff.mpr ⟨hpass, rfl⟩
    rw [FileTree.follow_append, hok, Except.bind, FileTree.follow, hdir]
    rfl
  have hnul' : '\x00' ∉ (p.join fileName).text.toList := by
    have hfile : '\x00' ∉ fileName.toList := by decide
    unfold Path.join
    split <;> simp [hnul, hfile]
  have hne : (p.join fileName).text.toList ≠ [] := by
    unfold Path.join
    split <;> simp [fileName]
  have hsize : (p.join fileName).text.utf8ByteSize ≤ FileTree.maxPathSize := by
    refine Nat.le_trans ?_ hroom
    unfold Path.join nameSize
    split
    · simp only [String.utf8ByteSize_append]
      omega
    · simp only [String.utf8ByteSize_append]
      omega
  rw [FileTree.resolve]
  simp only [List.contains_iff_mem, hnul', if_false, List.isEmpty_iff, hne, Nat.not_lt.mpr hsize,
    habs, hparts]
  exact hfollow

theorem settings_search {t : FileTree} {start : Path} {dir : Place} (hdir : t.LeadsTo start dir)
    (hroom : start.text.utf8ByteSize + nameSize ≤ FileTree.maxPathSize) :
    (search t start).settings = ((passed t start).findSome? (settingsAt? t)).getD .default := by
  obtain ⟨hnul, -, -, hpass, -⟩ := FileTree.leadsTo_iff.mp hdir
  have hfile : t.isFile start = false := by
    simp [FileTree.isFile, hdir.1, hdir.2]
  have hread : ∀ q : Path, q.text.toList <+: start.text.toList → q.isAbsolute = start.isAbsolute →
      q.names <+: start.names → readFile? t (q.join fileName) =
        settingsAt? t (q.names.foldl step (t.origin start)) := by
    -- What is written shorter is within the limit and passes fewer directories.
    intro q hbegins habs hnames
    have horigin : t.origin q = t.origin start := by rw [origin, origin, habs]
    have hsize : q.text.utf8ByteSize ≤ start.text.utf8ByteSize := by
      obtain ⟨rest, hrest⟩ := hbegins
      have htext : start.text = q.text ++ String.ofList rest := by simp [← String.toList_inj, hrest]
      rw [htext, String.utf8ByteSize_append]
      omega
    have hresolve := resolve_join (fun h => hnul (hbegins.subset h)) (by omega)
      (horigin ▸ hpass.of_begins hnames)
    rw [readFile?_eq hresolve, horigin]
  rw [search, hfile, if_neg Bool.false_ne_true, settings_searchIn,
    Path.findSome?_upwards (f := fun ns => settingsAt? t (ns.foldl step (t.origin start))) hread,
    passed, climb, ← List.map_reverse, List.findSome?_map]
  rfl

/-! ## The directories on the way -/

theorem descends_passed (t : FileTree) (start : Path) : Descends (passed t start) := by
  refine descends_climb (fun ns n => ?_) start.names
  rw [List.foldl_concat]
  exact FileTree.length_step_le _ _

theorem findSome?_passed {t : FileTree} {start : Path} {dir : Place} {β : Type} {f : Place → Option β}
    (hdir : t.LeadsTo start dir) (hmem : ∀ d, d ∈ passed t start ↔ d <+: dir) :
    (passed t start).findSome? f = (climb id dir).findSome? f := by
  obtain ⟨-, -, -, -, rfl⟩ := FileTree.leadsTo_iff.mp hdir
  refine Option.ext fun v => ?_
  rw [findSome?_eq_some_iff_longest (descends_passed t start) (head?_climb start.names) hmem,
    findSome?_eq_some_iff_longest (descends_climb (by simp) _) (head?_climb _) (by simp [mem_climb])]
  exact Iff.rfl

theorem foldl_step_of_no_parent {ns : List (List Char)}
    (h : ∀ n ∈ ns, Path.isVoid n = false ∧ n ≠ ['.', '.']) (here : Place) :
    ns.foldl step here = here ++ ns.map String.ofList := by
  induction ns generalizing here with
  | nil => simp
  | cons n ns ih =>
    obtain ⟨⟨hvoid, hparent⟩, hns⟩ := List.forall_mem_cons.mp h
    have hstep : step here n = here ++ [String.ofList n] := by
      simp [FileTree.step, hvoid, Path.Component.ofPart, hparent]
    rw [List.foldl_cons, hstep, ih hns, List.map_cons, List.append_assoc]
    rfl

theorem name_of_no_parent {p : Path} (h : .parent ∉ p.components) :
    ∀ n ∈ p.names, Path.isVoid n = false ∧ n ≠ ['.', '.'] := by
  intro n hn
  have hvoid : Path.isVoid n = false := by simpa using (List.mem_filter.mp hn).2
  refine ⟨hvoid, ?_⟩
  rintro rfl
  have hparent : Path.Component.parent ∈ p.names.map Path.Component.ofPart :=
    List.mem_map.mpr ⟨_, hn, rfl⟩
  apply h
  unfold Path.components
  simp only
  split
  · exact List.mem_cons_of_mem _ hparent
  · split
    · exact List.mem_cons_of_mem _ hparent
    · exact hparent

theorem mem_passed_of_absolute {t : FileTree} {start : Path} {dir : Place}
    (hdir : t.LeadsTo start dir) (habs : start.isAbsolute = true)
    (hparent : .parent ∉ start.components) (d : Place) : d ∈ passed t start ↔ d <+: dir := by
  obtain ⟨-, -, -, -, rfl⟩ := FileTree.leadsTo_iff.mp hdir
  have hnames := name_of_no_parent hparent
  have horigin : t.origin start = [] := by rw [origin, if_pos habs]
  rw [passed, mem_climb, horigin, foldl_step_of_no_parent hnames, List.nil_append]
  constructor
  · rintro ⟨before, hbefore, rfl⟩
    rw [foldl_step_of_no_parent fun n hn => hnames n (hbefore.subset hn), List.nil_append]
    exact hbefore.map _
  · intro hd
    obtain ⟨before, hbefore, rfl⟩ := List.prefix_map_iff.mp hd
    refine ⟨before, hbefore, ?_⟩
    rw [foldl_step_of_no_parent fun n hn => hnames n (hbefore.subset hn), List.nil_append]

/-! ## Files that tell directories apart -/

/-- A settings file that differs from the defaults. -/
def oneLineText : String := "[unconvert]\noneliners = true\n"

def oneLineSettings : Settings := { Settings.default with oneLine := some true }

theorem read?_oneLineText : read? oneLineText = some oneLineSettings := by
  cbv

theorem settingsAt?_of_entry {t : FileTree} {d : Place} {text : String}
    (h : t.entry (d ++ [fileName]) = .file (Text.bytes text)) : settingsAt? t d = read? text := by
  simp only [settingsAt?, h, Text.ofBytes?_bytes, Option.bind_some]

theorem findSome?_settingsAt? {t : FileTree} {d : Place}
    (h : t.files = [(d ++ [fileName], Text.bytes oneLineText)]) (ds : List Place) :
    ds.findSome? (settingsAt? t) = if d ∈ ds then some oneLineSettings else none := by
  have hsettings : ∀ e, settingsAt? t e = if e = d then some oneLineSettings else none := by
    intro e
    by_cases hed : e = d
    · have hentry : t.entry (d ++ [fileName]) = .file (Text.bytes oneLineText) := by
        simp [FileTree.entry, h]
      rw [if_pos hed, hed, settingsAt?_of_entry hentry, read?_oneLineText]
    · have hne : e ++ [fileName] ≠ d ++ [fileName] := fun h => hed (List.append_cancel_right h)
      rw [if_neg hed, settingsAt?, FileTree.entry, h, List.lookup_cons, beq_false_of_ne hne]
      simp only [List.lookup_nil]
      generalize t.isDirectoryAt _ = there
      cases there <;> rfl
  induction ds with
  | nil => rfl
  | cons e ds ih =>
    rw [List.findSome?_cons, ih, hsettings]
    by_cases hed : e = d
    · simp [hed]
    · simp [hed, Ne.symm hed]

/-- The directories that a path leads through, and settings in one directory only. -/
def onlyAt (t : FileTree) (start : Path) (d : Place) : FileTree where
  workingDir := t.workingDir
  files := [(d ++ [fileName], Text.bytes oneLineText)]
  directories := passed t start

theorem leadsTo_onlyAt {t : FileTree} {start : Path} {dir : Place} (hdir : t.LeadsTo start dir)
    (hnames : ∀ e ∈ passed t start, fileName ∉ e) (d : Place) :
    (onlyAt t start d).LeadsTo start dir := by
  obtain ⟨hnul, hne, hsize, hpass, hend⟩ := FileTree.leadsTo_iff.mp hdir
  refine FileTree.leadsTo_iff.mpr ⟨hnul, hne, hsize, ⟨fun before hbefore => ?_, hpass.short⟩, hend⟩
  have hmem : before.foldl step (t.origin start) ∈ passed t start := mem_climb.mpr ⟨before, hbefore, rfl⟩
  change (onlyAt t start d).entry (before.foldl step (t.origin start)) = .directory
  generalize before.foldl step (t.origin start) = e at hmem
  have hother : e ≠ d ++ [fileName] := by
    rintro rfl
    exact hnames _ hmem (by simp)
  have hthere : (onlyAt t start d).isDirectoryAt e = true := by
    unfold FileTree.isDirectoryAt onlyAt
    have hany : (passed t start).any e.isPrefixOf = true :=
      List.any_eq_true.mpr ⟨e, hmem, by simp⟩
    simp [hany]
  unfold FileTree.entry
  rw [hthere, onlyAt, List.lookup_cons, beq_false_of_ne hother]
  rfl

theorem mem_passed_of_search {t : FileTree} {start : Path} {dir : Place} (hdir : t.LeadsTo start dir)
    (hroom : start.text.utf8ByteSize + nameSize ≤ FileTree.maxPathSize)
    (hnames : ∀ e ∈ passed t start, fileName ∉ e)
    (h : ∀ t' : FileTree, t'.workingDir = t.workingDir → t'.LeadsTo start dir →
      (search t' start).settings = nearest t' dir) (d : Place) : d ∈ passed t start ↔ d <+: dir := by
  -- Settings in `d` alone are found if the path leads through it, and are the nearest if it is around.
  have hleads := leadsTo_onlyAt hdir hnames d
  have heq := h (onlyAt t start d) rfl hleads
  have hpassed : passed (onlyAt t start d) start = passed t start := rfl
  rw [settings_search hleads hroom, nearest, hpassed, findSome?_settingsAt? rfl,
    findSome?_settingsAt? rfl] at heq
  have hother : oneLineSettings ≠ .default := by decide
  have haround : d ∈ climb id dir ↔ d <+: dir := by simp [mem_climb]
  rw [← haround]
  by_cases hd : d ∈ passed t start
  · refine iff_of_true hd ?_
    by_contra hd'
    rw [if_pos hd, if_neg hd'] at heq
    exact hother heq
  · refine iff_of_false hd fun hd' => ?_
    rw [if_neg hd, if_pos hd'] at heq
    exact hother heq.symm

/-! ## The search -/

/-- A search finds the settings of the first directory that has any, among those that the path leads
through. If these are the directories around its end, the settings are the nearest ones, whatever
other files there are; so it is for absolute paths without `..`. Otherwise there are files for which
the settings are not the nearest ones. -/
theorem search_along_spelling {t : FileTree} {start : Path} {dir : Place}
    (hdir : t.LeadsTo start dir)
    (hroom : start.text.utf8ByteSize + nameSize ≤ FileTree.maxPathSize) :
    (search t start).settings = ((passed t start).findSome? (settingsAt? t)).getD .default ∧
    ((∀ d, d ∈ passed t start ↔ d <+: dir) → (search t start).settings = nearest t dir) ∧
    (start.isAbsolute = true → .parent ∉ start.components → ∀ d, d ∈ passed t start ↔ d <+: dir) ∧
    ((∀ e ∈ passed t start, fileName ∉ e) →
      (∀ t' : FileTree, t'.workingDir = t.workingDir → t'.LeadsTo start dir →
        (search t' start).settings = nearest t' dir) →
      ∀ d, d ∈ passed t start ↔ d <+: dir) := by
  refine ⟨settings_search hdir hroom, fun hmem => ?_, mem_passed_of_absolute hdir,
    mem_passed_of_search hdir hroom⟩
  rw [settings_search hdir hroom, findSome?_passed hdir hmem, nearest]

/-- A file that cannot be read as settings is passed over on the way up. -/
theorem absolutePath_finds_nearest :
    let t : FileTree := ⟨["w"], [(["w", fileName], Text.bytes oneLineText),
      (["w", "a", fileName], Text.bytes "oops")], [["w", "a", "b"]]⟩
    t.LeadsTo ⟨"/w//a/./b/"⟩ ["w", "a", "b"] ∧
      (search t ⟨"/w//a/./b/"⟩).settings = oneLineSettings := by
  intro t
  have hdir : t.LeadsTo ⟨"/w//a/./b/"⟩ ["w", "a", "b"] := ⟨by decide, by decide⟩
  have hb : settingsAt? t ["w", "a", "b"] = none := rfl
  have ha : settingsAt? t ["w", "a"] = none := (settingsAt?_of_entry rfl).trans (by cbv)
  have hw : settingsAt? t ["w"] = some oneLineSettings :=
    (settingsAt?_of_entry rfl).trans read?_oneLineText
  have haround : climb id ["w", "a", "b"] = [["w", "a", "b"], ["w", "a"], ["w"], []] := rfl
  obtain ⟨-, hnearest, habsolute, -⟩ := search_along_spelling hdir (by decide)
  refine ⟨hdir, ?_⟩
  rw [hnearest (habsolute (by decide) (by decide)), nearest, haround, List.findSome?_cons, hb,
    List.findSome?_cons, ha, List.findSome?_cons, hw]
  rfl

/-- The path `a/..` leads back out of `a`, whose settings are found all the same, and the path `.` does
not lead through the directories above. -/
theorem spelledPath_misses_nearest :
    let left : FileTree := ⟨["w"], [(["w", "a", fileName], Text.bytes oneLineText)], []⟩
    let above : FileTree := ⟨["v", "w"], [(["v", fileName], Text.bytes oneLineText)], []⟩
    (left.LeadsTo ⟨"a/.."⟩ ["w"] ∧ (search left ⟨"a/.."⟩).settings = oneLineSettings ∧
      nearest left ["w"] = .default) ∧
    above.LeadsTo ⟨"."⟩ ["v", "w"] ∧ (search above ⟨"."⟩).settings = .default ∧
      nearest above ["v", "w"] = oneLineSettings := by
  intro left above
  have hleft : left.LeadsTo ⟨"a/.."⟩ ["w"] := ⟨by decide, by decide⟩
  have habove : above.LeadsTo ⟨"."⟩ ["v", "w"] := ⟨by decide, by decide⟩
  have hin_left := @findSome?_settingsAt? left ["w", "a"] rfl
  have hin_above := @findSome?_settingsAt? above ["v"] rfl
  refine ⟨⟨hleft, ?_, ?_⟩, habove, ?_, ?_⟩
  · rw [settings_search hleft (by decide), hin_left, if_pos (by decide)]
    rfl
  · rw [nearest, hin_left, if_neg (by decide)]
    rfl
  · rw [settings_search habove (by decide), hin_above, if_neg (by decide)]
    rfl
  · rw [nearest, hin_above, if_pos (by decide)]
    rfl

end Settings

end ConvSweep
