import Mathlib.Data.List.DropRight
import Mathlib.Data.List.Infix
import ConvSweep.FileTree

/-! # Names along a path

What a path leads through are the parts between its slashes that are components. The path above has
all of them but the last, and spells the beginning of the path. A tree of files is followed name by
name.
-/

namespace ConvSweep

namespace Path

/-! ## Parts between slashes -/

theorem split_ne_nil (cs : List Char) : split cs ≠ [] := by
  fun_cases split cs <;> simp

theorem split_append_slash (as bs : List Char) : split (as ++ '/' :: bs) = split as ++ split bs := by
  induction as with
  | nil => simp [split]
  | cons a as ih =>
    rw [List.cons_append, split, split, ih]
    split
    · rfl
    · cases h : split as with
      | nil => exact absurd h (split_ne_nil as)
      | cons part parts => rfl

theorem split_of_notMem {cs : List Char} (h : '/' ∉ cs) : split cs = [cs] := by
  induction cs with
  | nil => rfl
  | cons c cs ih =>
    obtain ⟨hc, hcs⟩ := List.ne_and_not_mem_of_not_mem_cons h
    rw [split, if_neg hc.symm, ih hcs]

theorem slash_notMem_of_mem_split {cs part : List Char} (h : part ∈ split cs) : '/' ∉ part := by
  induction cs generalizing part with
  | nil => simp_all [split]
  | cons c cs ih =>
    unfold split at h
    split at h
    · rcases List.mem_cons.mp h with rfl | h
      · simp
      · exact ih h
    · rename_i hc
      cases hcs : split cs with
      | nil => exact absurd hcs (split_ne_nil cs)
      | cons first rest =>
        rw [hcs] at h ih
        rcases List.mem_cons.mp h with rfl | h
        · have := ih List.mem_cons_self
          simp only [List.mem_cons, not_or]
          exact ⟨fun heq => hc heq.symm, this⟩
        · exact ih (List.mem_cons_of_mem _ h)

theorem unsplit_cons {parts : List (List Char)} (h : parts ≠ []) (part : List Char) :
    unsplit (part :: parts) = part ++ '/' :: unsplit parts := by
  cases parts with
  | nil => exact absurd rfl h
  | cons first rest => rfl

theorem unsplit_concat {parts : List (List Char)} (h : parts ≠ []) (part : List Char) :
    unsplit (parts ++ [part]) = unsplit parts ++ '/' :: part := by
  induction parts with
  | nil => exact absurd rfl h
  | cons first rest ih =>
    cases rest with
    | nil => rfl
    | cons second rest =>
      rw [List.cons_append, unsplit_cons (by simp), ih (by simp),
        unsplit_cons (List.cons_ne_nil second rest), List.append_assoc, List.cons_append]

theorem split_unsplit {parts : List (List Char)} (hne : parts ≠ [])
    (h : ∀ part ∈ parts, '/' ∉ part) : split (unsplit parts) = parts := by
  induction parts with
  | nil => exact absurd rfl hne
  | cons part parts ih =>
    obtain ⟨hpart, hparts⟩ := List.forall_mem_cons.mp h
    by_cases hnil : parts = []
    · subst hnil
      exact split_of_notMem hpart
    · rw [unsplit_cons hnil, split_append_slash, split_of_notMem hpart, ih hnil hparts]
      rfl

theorem unsplit_split (cs : List Char) : unsplit (split cs) = cs := by
  induction cs with
  | nil => rfl
  | cons c cs ih =>
    unfold split
    split
    · rename_i hc
      rw [unsplit_cons (split_ne_nil cs), ih, hc]
      rfl
    · cases hcs : split cs with
      | nil => exact absurd hcs (split_ne_nil cs)
      | cons part parts =>
        rw [hcs] at ih
        cases parts with
        | nil => simpa [unsplit] using ih
        | cons second rest =>
          rw [unsplit_cons (by simp)] at ih ⊢
          simp [ih]

theorem unsplit_begins {as bs : List (List Char)} (h : as <+: bs) : unsplit as <+: unsplit bs := by
  obtain ⟨cs, rfl⟩ := h
  induction cs using List.reverseRecOn with
  | nil => simp
  | append_singleton cs c ih =>
    refine ih.trans ?_
    rw [← List.append_assoc]
    by_cases hnil : as ++ cs = []
    · rw [hnil]
      exact List.nil_prefix
    · rw [unsplit_concat hnil]
      exact List.prefix_append _ _

/-! ## Components at the end -/

theorem trimVoid_begins (absolute : Bool) (parts : List (List Char)) :
    trimVoid absolute parts <+: parts := by
  unfold trimVoid
  split
  · exact (List.prefix_cons_inj _).mpr ( List.rdropWhile_prefix isVoid _)
  · exact List.rdropWhile_prefix isVoid _

def named (parts : List (List Char)) : List (List Char) := parts.filter (!isVoid ·)

theorem named_append (as bs : List (List Char)) : named (as ++ bs) = named as ++ named bs :=
  List.filter_append as bs

theorem named_rdropWhile (parts : List (List Char)) :
    named (parts.rdropWhile isVoid) = named parts := by
  conv => rhs; rw [← List.rdropWhile_append_rtakeWhile (p := isVoid) (l := parts)]
  have hvoid : named (parts.rtakeWhile isVoid) = [] := by
    refine List.filter_eq_nil_iff.mpr fun part hpart => ?_
    rw [List.rtakeWhile, List.mem_reverse] at hpart
    simp [List.mem_takeWhile_imp hpart]
  rw [named_append, hvoid, List.append_nil]

theorem named_trimVoid (absolute : Bool) (parts : List (List Char)) :
    named (trimVoid absolute parts) = named parts := by
  unfold trimVoid
  split
  · exact named_rdropWhile _
  · exact named_rdropWhile _

theorem trimVoid_eq_concat {absolute : Bool} {parts init : List (List Char)} {last : List Char}
    (h : trimVoid absolute parts = init ++ [last]) :
    isVoid last = false ∨ (init = [] ∧ last = ['.']) := by
  have hend : ∀ {l : List (List Char)} {init last}, l.rdropWhile isVoid = init ++ [last] →
      isVoid last = false := by
    intro l init last h
    have hlast := List.rdropWhile_last_not isVoid l (by rw [h]; simp)
    simpa [h] using hlast
  unfold trimVoid at h
  split at h
  · cases init with
    | nil =>
      obtain ⟨rfl, -⟩ := List.cons.inj h
      exact .inr ⟨rfl, rfl⟩
    | cons first init => exact .inl (hend (List.cons.inj h).2)
  · exact .inl (hend h)

/-! ## The path above -/

/-- What stands before the parts of a path. -/
def lead (absolute : Bool) : List Char := if absolute then ['/'] else []

/-- The names along a path, `..` among them. -/
def names (p : Path) : List (List Char) := named (split p.text.toList)

theorem exists_body (p : Path) : ∃ body, p.text.toList = lead p.isAbsolute ++ body := by
  unfold isAbsolute
  cases h : p.text.toList with
  | nil => exact ⟨[], by simp [lead]⟩
  | cons c cs =>
    by_cases hc : c = '/'
    · exact ⟨cs, by simp [hc, lead]⟩
    · exact ⟨c :: cs, by simp [hc, lead]⟩

theorem named_split_lead (absolute : Bool) (body : List Char) :
    named (split (lead absolute ++ body)) = named (split body) := by
  cases absolute with
  | false => rfl
  | true => rfl

theorem parts_of_lead (absolute : Bool) (body : List Char) :
    (if absolute then (split (lead absolute ++ body)).tail else split (lead absolute ++ body)) =
      split body := by
  cases absolute with
  | false => rfl
  | true => rfl

theorem isAbsolute_of_begins {p q : Path} (h : q.text.toList <+: p.text.toList)
    (hlead : p.isAbsolute = true → q.isAbsolute = true) : q.isAbsolute = p.isAbsolute := by
  cases hp : p.isAbsolute with
  | true => exact hlead hp
  | false =>
    obtain ⟨rest, hrest⟩ := h
    unfold isAbsolute at hp ⊢
    rw [← hrest] at hp
    cases hq : q.text.toList with
    | nil => rfl
    | cons c cs => simpa [hq] using hp

theorem parent?_eq_none {p : Path} (h : p.parent? = none) : p.names = [] := by
  obtain ⟨body, hbody⟩ := exists_body p
  simp only [parent?, hbody, parts_of_lead] at h
  split at h
  · rename_i hnil
    rw [names, hbody, named_split_lead, ← named_trimVoid p.isAbsolute, List.isEmpty_iff.mp hnil]
    rfl
  · cases h

theorem ne_nil_of_trimVoid {absolute : Bool} {parts init : List (List Char)} {last : List Char}
    (h : trimVoid absolute parts = init ++ [last]) : last ≠ [] := by
  rintro rfl
  rcases trimVoid_eq_concat h with hend | ⟨-, hend⟩ <;> simp [isVoid] at hend

theorem length_unsplit_lt (init : List (List Char)) {last : List Char} (h : last ≠ []) :
    (unsplit init).length < (unsplit (init ++ [last])).length := by
  by_cases hnil : init = []
  · subst hnil
    exact List.length_pos_iff.mpr h
  · rw [unsplit_concat hnil, List.length_append, List.length_cons]
    omega

theorem named_split_unsplit {parts : List (List Char)} (h : ∀ part ∈ parts, '/' ∉ part) :
    named (split (unsplit parts)) = named parts := by
  by_cases hnil : parts = []
  · rw [hnil]
    rfl
  · rw [split_unsplit hnil h]

theorem exists_parts_of_parent? {p q : Path} (h : p.parent? = some q) :
    ∃ body init last, p.text.toList = lead p.isAbsolute ++ body ∧
      trimVoid p.isAbsolute (split body) = init ++ [last] ∧
      q.text.toList = lead p.isAbsolute ++ unsplit (trimVoid p.isAbsolute init) := by
  obtain ⟨body, hbody⟩ := exists_body p
  simp only [parent?, hbody, parts_of_lead] at h
  split at h
  · cases h
  rename_i hne
  rw [List.isEmpty_iff] at hne
  obtain ⟨init, last, htrim⟩ := (List.eq_nil_or_concat _).resolve_left hne
  rw [List.concat_eq_append] at htrim
  refine ⟨body, init, last, hbody, htrim, ?_⟩
  rw [htrim, List.dropLast_concat] at h
  obtain rfl := Option.some.inj h
  cases p.isAbsolute <;> simp [lead]

theorem parent?_eq_some {p q : Path} (h : p.parent? = some q) :
    q.text.toList <+: p.text.toList ∧ q.text.toList.length < p.text.toList.length ∧
      q.isAbsolute = p.isAbsolute ∧ q.names = p.names.dropLast := by
  obtain ⟨body, init, last, hbody, htrim, hq⟩ := exists_parts_of_parent? h
  have hparts : init ++ [last] <+: split body := htrim ▸ trimVoid_begins _ _
  have hinit : init <+: split body := (List.prefix_append _ _).trans hparts
  have hrest := trimVoid_begins p.isAbsolute init
  have hbegins : q.text.toList <+: p.text.toList := by
    rw [hq, hbody, List.prefix_append_right_inj, ← unsplit_split body]
    exact unsplit_begins (hrest.trans hinit)
  refine ⟨hbegins, ?_, isAbsolute_of_begins hbegins fun habs => ?_, ?_⟩
  · have hle := (unsplit_begins hrest).length_le
    have hlt := length_unsplit_lt init (ne_nil_of_trimVoid htrim)
    have hbound := (unsplit_begins hparts).length_le
    rw [unsplit_split] at hbound
    rw [hq, hbody, List.length_append, List.length_append]
    omega
  · rw [isAbsolute, hq, habs]
    rfl
  · have hslash : ∀ part ∈ trimVoid p.isAbsolute init, '/' ∉ part :=
      fun part hpart => slash_notMem_of_mem_split (hinit.subset (hrest.subset hpart))
    have hq' : q.names = named init := by
      rw [names, hq, named_split_lead, named_split_unsplit hslash, named_trimVoid]
    have hp' : p.names = named init ++ named [last] := by
      rw [names, hbody, named_split_lead, ← named_trimVoid p.isAbsolute, htrim, named_append]
    rw [hq', hp']
    -- The last part has a name, or is the dot that stands for the whole path.
    rcases trimVoid_eq_concat htrim with hend | ⟨rfl, rfl⟩
    · simp [named, hend]
    · rfl

theorem findSome?_upwards {β : Type} {g : Path → Option β} {f : List (List Char) → Option β}
    {p : Path} (h : ∀ q : Path, q.text.toList <+: p.text.toList → q.isAbsolute = p.isAbsolute →
      q.names <+: p.names → g q = f q.names) :
    p.upwards.findSome? g = p.names.inits.reverse.findSome? f := by
  suffices hgo : ∀ (n : Nat) (q : Path), q.text.toList.length ≤ n → q.text.toList <+: p.text.toList →
      q.isAbsolute = p.isAbsolute → q.names <+: p.names →
      (upwards.go n q).findSome? g = q.names.inits.reverse.findSome? f from
    hgo p.text.length p (Nat.le_of_eq String.length_toList) List.prefix_rfl rfl List.prefix_rfl
  intro n
  induction n with
  | zero =>
    intro q hlen hbegins habs hnames
    have hnil : q.names = [] := by
      rw [names, List.length_eq_zero_iff.mp (Nat.le_zero.mp hlen)]
      rfl
    simp [upwards.go, h q hbegins habs hnames, hnil]
  | succ n ih =>
    intro q hlen hbegins habs hnames
    have hq := h q hbegins habs hnames
    rw [upwards.go]
    split
    · rename_i above habove
      obtain ⟨hbegin, hless, habs', hdrop⟩ := parent?_eq_some habove
      have hrest := ih above (by omega) (hbegin.trans hbegins) (habs'.trans habs)
        (hdrop ▸ ( List.dropLast_prefix _).trans hnames)
      rw [List.findSome?_cons, hq, hrest, hdrop]
      rcases List.eq_nil_or_concat q.names with hnil | ⟨init, last, hlast⟩
      · rw [hnil]
        cases hroot : f [] <;> simp [hroot]
      · rw [hlast, List.concat_eq_append, List.dropLast_concat, List.inits_append]
        simp [List.findSome?_cons]
    · rename_i habove
      simp [hq, parent?_eq_none habove]

/-! ## A file in a directory -/

theorem isAbsolute_join (p : Path) (file : String) (h : file.toList.head? ≠ some '/') :
    (p.join file).isAbsolute = p.isAbsolute := by
  unfold join
  by_cases hp : p.text.toList = []
  · have hp' : p.text = "" := by simpa using hp
    simp [isAbsolute, hp', h]
  · obtain ⟨c, cs, hcs⟩ := List.exists_cons_of_ne_nil hp
    split <;> simp [isAbsolute, hcs]

theorem exists_parts_join (p : Path) (file : String) (h : '/' ∉ file.toList) :
    ∃ parts, split (p.join file).text.toList = parts ++ [file.toList] ∧ named parts = p.names := by
  unfold join
  split
  · rename_i hend
    rcases List.eq_nil_or_concat p.text.toList with hnil | ⟨init, last, hlast⟩
    · refine ⟨[], ?_, ?_⟩
      · simp [hnil, split_of_notMem h]
      · simp [names, hnil, split, named, isVoid]
    · rw [List.concat_eq_append] at hlast
      have hslash : last = '/' := by
        have hne : p.text ≠ "" := by
          rintro heq
          rw [heq] at hlast
          simp at hlast
        simpa [hlast, hne] using hend
      subst hslash
      refine ⟨split init, ?_, ?_⟩
      · simp [hlast, split_append_slash, split_of_notMem h]
      · rw [names, hlast, split_append_slash, named_append]
        simp [split, named, isVoid]
  · refine ⟨split p.text.toList, ?_, rfl⟩
    simp [split_append_slash, split_of_notMem h]

end Path

namespace FileTree

open ConvSweep.Path (named isVoid)

/-! ## Following names -/

theorem length_step_le (here : Place) (part : List Char) :
    (step here part).length ≤ here.length + 1 := by
  unfold step
  split
  · omega
  · split
    · rw [List.length_dropLast]
      omega
    · rw [List.length_append, List.length_singleton]

/-- Every place on the way along the names is a directory, and no name is too long. -/
structure Passable (t : FileTree) (here : Place) (ns : List (List Char)) : Prop where
  directory : ∀ before, before <+: ns → t.entry (before.foldl step here) = .directory
  short : ∀ name ∈ ns, (String.ofList name).utf8ByteSize ≤ maxNameSize

theorem passable_cons {t : FileTree} {here : Place} {name : List Char} {ns : List (List Char)} :
    t.Passable here (name :: ns) ↔ t.entry here = .directory ∧
      (String.ofList name).utf8ByteSize ≤ maxNameSize ∧ t.Passable (step here name) ns := by
  constructor
  · rintro ⟨hdir, hshort⟩
    refine ⟨hdir [] List.nil_prefix, hshort name List.mem_cons_self, fun before hbefore => ?_,
      fun n hn => hshort n (List.mem_cons_of_mem _ hn)⟩
    exact hdir (name :: before) ((List.prefix_cons_inj name).mpr hbefore)
  · rintro ⟨hhere, hname, hdir, hshort⟩
    refine ⟨fun before hbefore => ?_, List.forall_mem_cons.mpr ⟨hname, hshort⟩⟩
    cases before with
    | nil => exact hhere
    | cons first before =>
      obtain ⟨rfl, hrest⟩ := List.cons_prefix_cons.mp hbefore
      exact hdir before hrest

theorem Passable.of_begins {t : FileTree} {here : Place} {ns before : List (List Char)}
    (h : t.Passable here ns) (hbefore : before <+: ns) : t.Passable here before :=
  ⟨fun b hb => h.directory b (hb.trans hbefore), fun n hn => h.short n (hbefore.subset hn)⟩

theorem utf8ByteSize_void_le {part : List Char} (h : isVoid part = true) :
    (String.ofList part).utf8ByteSize ≤ maxNameSize := by
  have hpart : part = [] ∨ part = ['.'] := by simpa [isVoid] using h
  rcases hpart with rfl | rfl <;> decide

theorem follow_cons_directory_iff {t : FileTree} {here dir : Place} {part : List Char}
    {parts : List (List Char)} :
    t.follow here (part :: parts) = .ok dir ∧ t.entry dir = .directory ↔
      t.entry here = .directory ∧ (String.ofList part).utf8ByteSize ≤ maxNameSize ∧
        t.follow (step here part) parts = .ok dir ∧ t.entry dir = .directory := by
  rw [follow]
  cases t.entry here with
  | directory =>
    by_cases hlong : maxNameSize < (String.ofList part).utf8ByteSize
    · simp [hlong, Nat.not_le.mpr hlong]
    · simp [hlong, Nat.not_lt.mp hlong]
  | file content => simp
  | nothing => simp

theorem passable_nil {t : FileTree} {here : Place} :
    t.Passable here [] ↔ t.entry here = .directory := by
  refine ⟨fun h => h.directory [] List.nil_prefix, fun h => ⟨fun before hbefore => ?_, by simp⟩⟩
  rw [List.prefix_nil.mp hbefore]
  exact h

theorem follow_directory_iff {t : FileTree} {here dir : Place} {parts : List (List Char)} :
    t.follow here parts = .ok dir ∧ t.entry dir = .directory ↔
      t.Passable here (named parts) ∧ dir = (named parts).foldl step here := by
  induction parts generalizing here with
  | nil =>
    simp only [follow, Except.ok.injEq, named, List.filter_nil, List.foldl_nil, passable_nil]
    constructor
    · rintro ⟨rfl, h⟩
      exact ⟨h, rfl⟩
    · rintro ⟨h, rfl⟩
      exact ⟨rfl, h⟩
  | cons part parts ih =>
    rw [follow_cons_directory_iff, ih]
    -- An empty part and a dot stay in the directory, which is passed once more further on.
    by_cases hvoid : isVoid part = true
    · have hsame : step here part = here := by rw [step, if_pos hvoid]
      have hnamed : named (part :: parts) = named parts := by simp [named, hvoid]
      rw [hsame, hnamed]
      constructor
      · rintro ⟨-, -, h⟩
        exact h
      · rintro ⟨h, hdir⟩
        exact ⟨h.directory [] List.nil_prefix, utf8ByteSize_void_le hvoid, h, hdir⟩
    · have hnamed : named (part :: parts) = part :: named parts := by simp [named, hvoid]
      rw [hnamed, passable_cons, List.foldl_cons, and_assoc, and_assoc]

theorem follow_append (t : FileTree) (here : Place) (as bs : List (List Char)) :
    t.follow here (as ++ bs) = (t.follow here as).bind fun place => t.follow place bs := by
  induction as generalizing here with
  | nil => rfl
  | cons a as ih =>
    rw [List.cons_append, follow, follow]
    cases t.entry here with
    | directory =>
      simp only
      split
      · rfl
      · exact ih _
    | file content => rfl
    | nothing => rfl

/-! ## Paths to directories -/

/-- The place at which a path starts. -/
def origin (t : FileTree) (p : Path) : Place := if p.isAbsolute then [] else t.workingDir

/-- The path leads to a directory. -/
def LeadsTo (t : FileTree) (p : Path) (dir : Place) : Prop :=
  t.resolve p = .ok dir ∧ t.entry dir = .directory

theorem leadsTo_iff {t : FileTree} {p : Path} {dir : Place} :
    t.LeadsTo p dir ↔ '\x00' ∉ p.text.toList ∧ p.text.toList ≠ [] ∧ p.text.utf8ByteSize ≤ maxPathSize ∧
      t.Passable (t.origin p) p.names ∧ dir = p.names.foldl step (t.origin p) := by
  have hfollow := @follow_directory_iff t (t.origin p) dir (Path.split p.text.toList)
  rw [← Path.names] at hfollow
  rw [LeadsTo, resolve, ← origin, ← hfollow]
  by_cases hnul : '\x00' ∈ p.text.toList
  · simp [hnul]
  · by_cases hnil : p.text.toList = []
    · simp [hnil]
    · by_cases hlong : maxPathSize < p.text.utf8ByteSize
      · simp [hnul, hnil, hlong, Nat.not_le.mpr hlong]
      · have hle : p.text.utf8ByteSize ≤ maxPathSize := Nat.not_lt.mp hlong
        simp only [List.contains_iff_mem, hnul, if_false, List.isEmpty_iff, hnil, hlong, hle,
          not_false_eq_true, ne_eq, true_and]

end FileTree

end ConvSweep
