import Mathlib
import ConvSweep.Apply
import ConvSweep.Proofs.EditSets

/-! # Fixing files side by side

Every file of a set is fixed in two steps, between which other files may be worked on: its new
content is made from what is there, and then it is written. Nothing is written before all that can
fail has been done, so a file holds its old content or its new one at any time.
-/

namespace ConvSweep

variable {σ : Type}

/-- The store is a map from paths to contents; paths with the same components are one. -/
structure FileAccess.IsMap (files : FileAccess σ) : Prop where
  read_congr : ∀ (s : σ) {p q : Path}, p.key = q.key → files.read s p = files.read s q
  read_write : ∀ {s s' : σ} {p : Path} {c : List UInt8},
    files.write s p c = .ok s' → files.read s' p = .ok c
  read_write_of_ne : ∀ {s s' : σ} {p q : Path} {c : List UInt8},
    files.write s p c = .ok s' → p.key ≠ q.key → files.read s' q = files.read s q

namespace EditSet

variable {set : EditSet} {x y : Path × RemovalSet} {q : Path}

theorem eq_of_mem_files (hx : x ∈ set.files) (hy : y ∈ set.files) (h : x.1.key = y.1.key) :
    x = y :=
  eq_of_key (List.mem_of_mem_filter hx) (List.mem_of_mem_filter hy) h

theorem edits_of_mem_files (hx : x ∈ set.files) : set.edits x.1 = x.2.edits := by
  have hentry : set.entry? x.1 = some x.2 :=
    entry?_eq_some_iff.mpr ⟨x.1, List.mem_of_mem_filter hx, rfl⟩
  unfold edits
  rw [hentry]

theorem key_ne_of_removals?_eq_none (hq : set.removals? q = none) (hx : x ∈ set.files) :
    x.1.key ≠ q.key := by
  intro hkey
  have hentry : set.entry? q = some x.2 :=
    entry?_eq_some_iff.mpr ⟨x.1, List.mem_of_mem_filter hx, hkey⟩
  unfold removals? at hq
  rw [hentry, Option.filter_eq_none_iff] at hq
  simpa using hq x.2 rfl (by simpa using (List.mem_filter.mp hx).2)

end EditSet

namespace Apply

variable {files : FileAccess σ} {format : Formatter} {set : EditSet} {s s₀ : σ}
  {x : Path × RemovalSet} {edits : List Edit} {p : Path}

/-! ## One file -/

/-- The new content of a file, made from what is there. -/
def prepare (files : FileAccess σ) (format : Formatter) (edits : List Edit) (path : Path) (s : σ) :
    Except FixFault (List UInt8) := do
  let content ← (files.read s path).mapError .file
  fixContent format edits content

theorem fixFile_eq (files : FileAccess σ) (format : Formatter) (edits : List Edit) (p : Path)
    (s : σ) :
    fixFile files format edits p s =
      prepare files format edits p s >>= fun fixed => (files.write s p fixed).mapError .file := by
  simp [fixFile, prepare]

theorem prepare_congr (h : files.read s p = files.read s₀ p) :
    prepare files format edits p s = prepare files format edits p s₀ := by
  unfold prepare
  rw [h]

theorem fixContent_eq_ok {content fixed : List UInt8}
    (h : fixContent format edits content = .ok fixed) :
    ∃ source rest text, decodeText content = .ok source ∧ Deletion.apply source edits = .ok rest ∧
      format rest = .ok text ∧ fixed = Text.bytes text := by
  unfold fixContent at h
  cases hsource : decodeText content with
  | error e => simp [hsource, bind, Except.bind, Except.mapError] at h
  | ok source =>
    cases hrest : Deletion.apply source edits with
    | error e => simp [hsource, hrest, bind, Except.bind, Except.mapError] at h
    | ok rest =>
      cases htext : format rest with
      | error e => simp [hsource, hrest, htext, bind, Except.bind, Except.mapError] at h
      | ok text =>
        simp [hsource, hrest, htext, bind, Except.bind, Except.mapError, pure, Except.pure] at h
        exact ⟨source, rest, text, rfl, hrest, htext, h.symm⟩

/-- The file held a text at `s₀`, and holds at `s` what formatting makes of the text without the
edits that the set has for it. -/
def Rewritten (files : FileAccess σ) (format : Formatter) (set : EditSet) (s₀ s : σ) (p : Path) :
    Prop :=
  ∃ content source rest text, files.read s₀ p = .ok content ∧ decodeText content = .ok source ∧
    Deletion.apply source (set.edits p) = .ok rest ∧ format rest = .ok text ∧
    files.read s p = .ok (Text.bytes text)

theorem rewritten_of_prepare {fixed : List UInt8}
    (h : prepare files format (set.edits p) p s₀ = .ok fixed) (hread : files.read s p = .ok fixed) :
    Rewritten files format set s₀ s p := by
  unfold prepare at h
  cases hcontent : files.read s₀ p with
  | error e => simp [hcontent, bind, Except.bind, Except.mapError] at h
  | ok content =>
    simp only [hcontent, bind, Except.bind, Except.mapError] at h
    obtain ⟨source, rest, text, hsource, hrest, htext, rfl⟩ := fixContent_eq_ok h
    exact ⟨content, source, rest, text, hcontent, hsource, hrest, htext, hread⟩

/-! ## Any order -/

/-- How far a file has come. -/
inductive Progress
  | waiting
  | ready (fixed : List UInt8)
  | done
  | failed (cause : FixFault)

/-- The store, and how far every file has come. -/
structure Job (σ : Type) where
  store : σ
  progress : Path → Progress

namespace Job

def start (s : σ) : Job σ := ⟨s, fun _ => .waiting⟩

def advance (job : Job σ) (p : Path) (next : Progress) : Job σ :=
  { job with progress := Function.update job.progress p next }

/-- The files that were fixed, in the order of the set; none unless all of them were. -/
def results (set : EditSet) (job : Job σ) : Option (List Fixed) :=
  set.files.mapM fun x =>
    match job.progress x.1 with
    | .done => some ⟨x.1, x.2.size⟩
    | _ => none

@[simp] theorem store_advance (job : Job σ) (p : Path) (next : Progress) :
    (job.advance p next).store = job.store := rfl

@[simp] theorem progress_advance_self (job : Job σ) (p : Path) (next : Progress) :
    (job.advance p next).progress p = next := by
  simp [advance]

theorem progress_advance_of_ne (job : Job σ) {p q : Path} (next : Progress) (h : q ≠ p) :
    (job.advance p next).progress q = job.progress q := by
  simp [advance, h]

end Job

/-- One step of one file of the set. -/
inductive Step (files : FileAccess σ) (format : Formatter) (set : EditSet) : Job σ → Job σ → Prop
  | prepared {job : Job σ} {x : Path × RemovalSet} {fixed : List UInt8} (hx : x ∈ set.files)
      (hwaiting : job.progress x.1 = .waiting)
      (h : prepare files format x.2.edits x.1 job.store = .ok fixed) :
      Step files format set job (job.advance x.1 (.ready fixed))
  | refused {job : Job σ} {x : Path × RemovalSet} {cause : FixFault} (hx : x ∈ set.files)
      (hwaiting : job.progress x.1 = .waiting)
      (h : prepare files format x.2.edits x.1 job.store = .error cause) :
      Step files format set job (job.advance x.1 (.failed cause))
  | written {job : Job σ} {x : Path × RemovalSet} {fixed : List UInt8} {s : σ} (hx : x ∈ set.files)
      (hready : job.progress x.1 = .ready fixed) (h : files.write job.store x.1 fixed = .ok s) :
      Step files format set job { job.advance x.1 .done with store := s }
  | unwritten {job : Job σ} {x : Path × RemovalSet} {fixed : List UInt8} {cause : FileError}
      (hx : x ∈ set.files) (hready : job.progress x.1 = .ready fixed)
      (h : files.write job.store x.1 fixed = .error cause) :
      Step files format set job (job.advance x.1 (.failed (.file cause)))

/-- Any number of steps, of any of the files in any order. -/
abbrev Steps (files : FileAccess σ) (format : Formatter) (set : EditSet) : Job σ → Job σ → Prop :=
  Relation.ReflTransGen (Step files format set)

/-- What a file holds after it has come as far as `progress`. -/
def HoldsAt (files : FileAccess σ) (format : Formatter) (set : EditSet) (s₀ s : σ) (p : Path) :
    Progress → Prop
  | .waiting | .failed _ => files.read s p = files.read s₀ p
  | .ready fixed => files.read s p = files.read s₀ p ∧
      prepare files format (set.edits p) p s₀ = .ok fixed
  | .done => ∃ fixed, prepare files format (set.edits p) p s₀ = .ok fixed ∧
      files.read s p = .ok fixed

structure Invariant (files : FileAccess σ) (format : Formatter) (set : EditSet) (s₀ : σ)
    (job : Job σ) : Prop where
  inside : ∀ x ∈ set.files, HoldsAt files format set s₀ job.store x.1 (job.progress x.1)
  outside : ∀ q, set.removals? q = none → files.read job.store q = files.read s₀ q

theorem HoldsAt.congr {progress : Progress} {s' : σ} (hread : files.read s' p = files.read s p)
    (h : HoldsAt files format set s₀ s p progress) :
    HoldsAt files format set s₀ s' p progress := by
  unfold HoldsAt at h ⊢
  rw [hread]
  exact h

theorem invariant_start (files : FileAccess σ) (format : Formatter) (set : EditSet) (s₀ : σ) :
    Invariant files format set s₀ (.start s₀) :=
  ⟨fun _ _ => rfl, fun _ _ => rfl⟩

theorem Invariant.advance {job : Job σ} {next : Progress} (h : Invariant files format set s₀ job)
    (hx : HoldsAt files format set s₀ job.store x.1 next) :
    Invariant files format set s₀ (job.advance x.1 next) := by
  refine ⟨fun y hy => ?_, h.outside⟩
  by_cases hyx : y.1 = x.1
  · rw [hyx, Job.progress_advance_self]
    exact hx
  · rw [Job.progress_advance_of_ne _ _ hyx]
    exact h.inside y hy

theorem Invariant.step (hmap : files.IsMap) {job job' : Job σ}
    (h : Invariant files format set s₀ job) (hstep : Step files format set job job') :
    Invariant files format set s₀ job' := by
  cases hstep with
  | @prepared x fixed hx hwaiting hprepare =>
    have hread := h.inside x hx
    rw [hwaiting] at hread
    refine h.advance ⟨hread, ?_⟩
    rw [EditSet.edits_of_mem_files hx, ← prepare_congr hread]
    exact hprepare
  | @refused x cause hx hwaiting hprepare =>
    have hread := h.inside x hx
    rw [hwaiting] at hread
    exact h.advance hread
  | @written x fixed s hx hready hwrite =>
    have hprepared := h.inside x hx
    rw [hready] at hprepared
    -- Writing changes the file of `x` alone, and the paths without removals are none of the set.
    constructor
    · intro y hy
      by_cases hyx : y.1 = x.1
      · simp only [hyx, Job.progress_advance_self]
        exact ⟨fixed, hprepared.2, hmap.read_write hwrite⟩
      · have hkey : x.1.key ≠ y.1.key := by
          intro hkey
          rw [EditSet.eq_of_mem_files hx hy hkey] at hyx
          exact hyx rfl
        simp only [Job.progress_advance_of_ne _ _ hyx]
        exact (h.inside y hy).congr (hmap.read_write_of_ne hwrite hkey)
    · intro q hq
      rw [← h.outside q hq]
      exact hmap.read_write_of_ne hwrite (EditSet.key_ne_of_removals?_eq_none hq hx)
  | @unwritten x fixed cause hx hready hwrite =>
    have hprepared := h.inside x hx
    rw [hready] at hprepared
    exact h.advance hprepared.1

theorem invariant_of_steps (hmap : files.IsMap) {job : Job σ}
    (h : Steps files format set (.start s₀) job) : Invariant files format set s₀ job := by
  induction h with
  | refl => exact invariant_start files format set s₀
  | tail _ hstep ih => exact ih.step hmap hstep

namespace Invariant

variable {job : Job σ}

theorem rewritten_of_done (h : Invariant files format set s₀ job) (hx : x ∈ set.files)
    (hdone : job.progress x.1 = .done) : Rewritten files format set s₀ job.store x.1 := by
  have hheld := h.inside x hx
  rw [hdone] at hheld
  obtain ⟨fixed, hprepare, hread⟩ := hheld
  exact rewritten_of_prepare hprepare hread

theorem kept_or_done (h : Invariant files format set s₀ job) (hx : x ∈ set.files) :
    files.read job.store x.1 = files.read s₀ x.1 ∨ job.progress x.1 = .done := by
  have hheld := h.inside x hx
  cases hprogress : job.progress x.1 with
  | waiting => rw [hprogress] at hheld; exact .inl hheld
  | ready fixed => rw [hprogress] at hheld; exact .inl hheld.1
  | done => exact .inr rfl
  | failed cause => rw [hprogress] at hheld; exact .inl hheld

theorem kept_of_failed (h : Invariant files format set s₀ job) (hx : x ∈ set.files)
    (hfailed : (∃ cause, job.progress x.1 = .failed cause) ∨
      ∃ cause, prepare files format (set.edits x.1) x.1 s₀ = .error cause) :
    files.read job.store x.1 = files.read s₀ x.1 := by
  rcases h.kept_or_done hx with hkept | hdone
  · exact hkept
  · have hheld := h.inside x hx
    rw [hdone] at hheld
    obtain ⟨fixed, hprepare, -⟩ := hheld
    rcases hfailed with ⟨cause, hcause⟩ | ⟨cause, hcause⟩
    · rw [hdone] at hcause
      cases hcause
    · rw [hprepare] at hcause
      cases hcause

end Invariant

/-! ## The result -/

theorem results_eq_some_iff {job : Job σ} {fixed : List Fixed} :
    job.results set = some fixed ↔
      (∀ x ∈ set.files, job.progress x.1 = .done) ∧
        fixed = set.files.map fun x => ⟨x.1, x.2.size⟩ := by
  unfold Job.results
  generalize set.files = todo
  induction todo generalizing fixed with
  | nil => simp [eq_comm]
  | cons x todo ih =>
    rw [List.mapM_cons]
    cases hx : job.progress x.1 with
    | done =>
      simp only [Option.bind_eq_bind, Option.bind_some, Option.bind_eq_some_iff, ih,
        List.forall_mem_cons, hx, true_and, List.map_cons]
      constructor
      · rintro ⟨rest, ⟨hdone, rfl⟩, h⟩
        exact ⟨hdone, (Option.some.inj h).symm⟩
      · rintro ⟨hdone, rfl⟩
        exact ⟨_, ⟨hdone, rfl⟩, rfl⟩
    | waiting => simp [hx]
    | ready fixed => simp [hx]
    | failed cause => simp [hx]

/-! ## One file after the other -/

/-- What is left of a job once a file has been fixed, or not. -/
def FileSettled (job job' : Job σ) (p : Path) : Except FixFault σ → Prop
  | .ok s => job'.store = s ∧ job'.progress p = .done
  | .error cause => job'.store = job.store ∧ job'.progress p = .failed cause

theorem exists_steps_fixFile (files : FileAccess σ) (format : Formatter) (hx : x ∈ set.files)
    {job : Job σ} (hwaiting : job.progress x.1 = .waiting) :
    ∃ job', Steps files format set job job' ∧
      (∀ q, q ≠ x.1 → job'.progress q = job.progress q) ∧
      FileSettled job job' x.1 (fixFile files format x.2.edits x.1 job.store) := by
  rw [fixFile_eq]
  cases hprepare : prepare files format x.2.edits x.1 job.store with
  | error cause =>
    refine ⟨_, .single (.refused hx hwaiting hprepare), fun q hq => ?_, ?_⟩
    · exact job.progress_advance_of_ne _ hq
    · exact ⟨rfl, job.progress_advance_self _ _⟩
  | ok fixed =>
    have hprepared := Step.prepared hx hwaiting hprepare
    have hready : (job.advance x.1 (.ready fixed)).progress x.1 = .ready fixed :=
      job.progress_advance_self _ _
    simp only [bind, Except.bind]
    cases hwrite : files.write job.store x.1 fixed with
    | error cause =>
      refine ⟨_, .tail (.single hprepared) (.unwritten hx hready hwrite), fun q hq => ?_, ?_⟩
      · rw [Job.progress_advance_of_ne _ _ hq, Job.progress_advance_of_ne _ _ hq]
      · exact ⟨rfl, Job.progress_advance_self _ _ _⟩
    | ok s =>
      refine ⟨_, .tail (.single hprepared) (.written hx hready hwrite), fun q hq => ?_, ?_⟩
      · simp only [Job.progress_advance_of_ne _ _ hq]
      · exact ⟨rfl, Job.progress_advance_self _ _ _⟩

/-- What is left of a job once files have been fixed one after the other. -/
def FilesSettled (todo : List (Path × RemovalSet)) (job : Job σ) :
    Except FixError (List Fixed) → Prop
  | .ok fixed => (∀ x ∈ todo, job.progress x.1 = .done) ∧
      fixed = todo.map fun x => ⟨x.1, x.2.size⟩
  | .error e => ∃ x ∈ todo, x.1 = e.path ∧ job.progress x.1 = .failed e.cause

theorem exists_steps_fixAll (files : FileAccess σ) (format : Formatter)
    {todo : List (Path × RemovalSet)} (hsub : ∀ x ∈ todo, x ∈ set.files)
    (hdistinct : todo.Pairwise fun x y => x.1 ≠ y.1) (job : Job σ)
    (hwaiting : ∀ x ∈ todo, job.progress x.1 = .waiting) :
    ∃ job', Steps files format set job job' ∧
      (∀ q, (∀ x ∈ todo, q ≠ x.1) → job'.progress q = job.progress q) ∧
      job'.store = (fixAll files format todo job.store).1 ∧
      FilesSettled todo job' (fixAll files format todo job.store).2 := by
  induction todo generalizing job with
  | nil => exact ⟨job, .refl, fun _ _ => rfl, rfl, by simp, rfl⟩
  | cons x todo ih =>
    obtain ⟨hne, hdistinct⟩ := List.pairwise_cons.mp hdistinct
    obtain ⟨job₁, hsteps₁, hothers₁, hsettled⟩ :=
      exists_steps_fixFile files format (hsub x (by simp)) (hwaiting x (by simp))
    unfold fixAll
    cases hfix : fixFile files format x.2.edits x.1 job.store with
    | error cause =>
      rw [hfix] at hsettled
      exact ⟨job₁, hsteps₁, fun q hq => hothers₁ q (hq x (by simp)), hsettled.1, x, by simp, rfl,
        hsettled.2⟩
    | ok s =>
      rw [hfix] at hsettled
      obtain ⟨rfl, hdone⟩ := hsettled
      -- Fixing `x` left the progress of the other files alone, so they still wait.
      have hwaiting₁ : ∀ y ∈ todo, job₁.progress y.1 = .waiting := by
        intro y hy
        rw [hothers₁ y.1 (hne y hy).symm]
        exact hwaiting y (by simp [hy])
      obtain ⟨job₂, hsteps₂, hothers₂, hstore, hrest⟩ :=
        ih (fun y hy => hsub y (by simp [hy])) hdistinct job₁ hwaiting₁
      have hdone₂ : job₂.progress x.1 = .done := by rw [hothers₂ x.1 hne, hdone]
      refine ⟨job₂, hsteps₁.trans hsteps₂, fun q hq => ?_, ?_⟩
      · rw [hothers₂ q fun y hy => hq y (by simp [hy]), hothers₁ q (hq x (by simp))]
      · simp only
        rcases hall : fixAll files format todo job₁.store with ⟨s, e | fixed⟩
        · rw [hall] at hstore hrest
          obtain ⟨y, hy, hpath, hfailed⟩ := hrest
          exact ⟨hstore, y, by simp [hy], hpath, hfailed⟩
        · rw [hall] at hstore hrest
          obtain ⟨hdones, rfl⟩ := hrest
          exact ⟨hstore, by simpa using ⟨hdone₂, fun a b hab => hdones (a, b) hab⟩, rfl⟩

/-- Fixing the files of a set one after the other is one of the orders. -/
theorem exists_steps_run (files : FileAccess σ) (format : Formatter) (set : EditSet) (s₀ : σ) :
    ∃ job, Steps files format set (.start s₀) job ∧ job.store = (run files format set s₀).1 ∧
      FilesSettled set.files job (run files format set s₀).2 := by
  have hdistinct : set.files.Pairwise fun x y => x.1 ≠ y.1 := by
    refine (set.sorted.filter _).imp ?_
    intro x y hlt heq
    rw [heq] at hlt
    exact lt_irrefl _ hlt
  obtain ⟨job, hsteps, -, hstore, hsettled⟩ :=
    exists_steps_fixAll files format (fun x hx => hx) hdistinct (.start s₀) fun _ _ => rfl
  exact ⟨job, hsteps, hstore, hsettled⟩

/-- However the steps of the files fall, no file is ever half changed: it holds its old content or
its fixed one, and the old one if it failed. Files without removals are left alone. Results are
there only once every file is fixed, and then they are listed in the order of the paths. Fixing one
file after the other is such a run, with the same result. -/
theorem fixing_never_half_changes (hmap : files.IsMap) (format : Formatter) (set : EditSet)
    (s₀ : σ) :
    (∀ job, Steps files format set (.start s₀) job →
      (∀ x ∈ set.files, files.read job.store x.1 = files.read s₀ x.1 ∨
        Rewritten files format set s₀ job.store x.1) ∧
      (∀ q, set.removals? q = none → files.read job.store q = files.read s₀ q) ∧
      (∀ x ∈ set.files, ((∃ cause, job.progress x.1 = .failed cause) ∨
          ∃ cause, prepare files format (set.edits x.1) x.1 s₀ = .error cause) →
        files.read job.store x.1 = files.read s₀ x.1) ∧
      ∀ fixed, job.results set = some fixed →
        (∀ x ∈ set.files, Rewritten files format set s₀ job.store x.1) ∧
        fixed = (set.files.map fun x => ⟨x.1, x.2.size⟩) ∧
        fixed.Pairwise fun f g => f.path.key < g.path.key) ∧
    ∃ job, Steps files format set (.start s₀) job ∧ job.store = (run files format set s₀).1 ∧
      ∀ fixed, (run files format set s₀).2 = .ok fixed ↔ job.results set = some fixed := by
  constructor
  · intro job hsteps
    have hinv := invariant_of_steps hmap hsteps
    refine ⟨fun x hx => ?_, hinv.outside, fun x hx => hinv.kept_of_failed hx, ?_⟩
    · exact (hinv.kept_or_done hx).imp_right (hinv.rewritten_of_done hx)
    · intro fixed hfixed
      obtain ⟨hdone, rfl⟩ := results_eq_some_iff.mp hfixed
      refine ⟨fun x hx => hinv.rewritten_of_done hx (hdone x hx), rfl, ?_⟩
      exact List.pairwise_map.mpr (set.sorted.filter _)
  · obtain ⟨job, hsteps, hstore, hsettled⟩ := exists_steps_run files format set s₀
    refine ⟨job, hsteps, hstore, fun fixed => ?_⟩
    rw [results_eq_some_iff]
    cases hrun : (run files format set s₀).2 with
    | ok results =>
      rw [hrun] at hsettled
      obtain ⟨hdone, rfl⟩ := hsettled
      rw [Except.ok.injEq, eq_comm]
      exact ⟨fun h => ⟨hdone, h⟩, And.right⟩
    | error e =>
      rw [hrun] at hsettled
      obtain ⟨x, hx, -, hfailed⟩ := hsettled
      -- The file that stopped the run is not done, so the job has no results either.
      refine ⟨fun h => (by cases h), fun h => ?_⟩
      rw [h.1 x hx] at hfailed
      cases hfailed

/-! A map of contents, as the simplest store. -/

/-- Contents by the components of their paths. -/
abbrev Disk := List (List Nat) → Option (List UInt8)

def Disk.access : FileAccess Disk where
  read disk p :=
    match disk p.key with
    | some content => .ok content
    | none => .error .notFound
  write disk p content := .ok (Function.update disk p.key (some content))

theorem isMap_disk : Disk.access.IsMap where
  read_congr disk p q h := by simp [Disk.access, h]
  read_write h := by
    cases h
    simp [Disk.access]
  read_write_of_ne h hne := by
    cases h
    simp [Disk.access, hne.symm]

/-- One removal that fits the file on `sampleDisk`, and one for a file that is missing. -/
def sampleSet : EditSet where
  entries := [(⟨"a.go"⟩, ⟨[⟨1, [⟨0, 2⟩]⟩], by simp⟩), (⟨"b.go"⟩, ⟨[⟨1, [⟨0, 2⟩]⟩], by simp⟩),
    (⟨"c.go"⟩, .empty)]
  sorted := by decide

def sampleDisk : Disk := fun key =>
  if key = (⟨"a.go"⟩ : Path).key then some (Text.bytes "T(x") else none

theorem sampleDisk_never_half_changed :
    Disk.access.IsMap ∧
      ∀ job, Steps Disk.access .verbatim sampleSet (.start sampleDisk) job →
        Disk.access.read job.store ⟨"b.go"⟩ = .error .notFound ∧
        Disk.access.read job.store ⟨"c.go"⟩ = .error .notFound ∧
        (Disk.access.read job.store ⟨"a.go"⟩ = .ok (Text.bytes "T(x") ∨
          Disk.access.read job.store ⟨"a.go"⟩ = .ok (Text.bytes "x")) := by
  refine ⟨isMap_disk, fun job hsteps => ?_⟩
  obtain ⟨hinside, houtside, hfailed, -⟩ :=
    (fixing_never_half_changes isMap_disk .verbatim sampleSet sampleDisk).1 job hsteps
  have hne : ∀ p : Path, p.key ≠ (⟨"a.go"⟩ : Path).key →
      Disk.access.read sampleDisk p = .error .notFound := by
    intro p hp
    simp [Disk.access, sampleDisk, hp]
  have hmissing := hne ⟨"b.go"⟩ (by decide)
  have hveto := hne ⟨"c.go"⟩ (by decide)
  have hread : Disk.access.read sampleDisk ⟨"a.go"⟩ = .ok (Text.bytes "T(x") := by
    simp [Disk.access, sampleDisk]
  have ha : (⟨"a.go"⟩, ⟨[⟨1, [⟨0, 2⟩]⟩], by simp⟩) ∈ sampleSet.files :=
    List.mem_filter.mpr ⟨List.mem_cons_self, rfl⟩
  have hb : (⟨"b.go"⟩, ⟨[⟨1, [⟨0, 2⟩]⟩], by simp⟩) ∈ sampleSet.files :=
    List.mem_filter.mpr ⟨List.mem_cons_of_mem _ List.mem_cons_self, rfl⟩
  refine ⟨?_, ?_, ?_⟩
  · rw [← hmissing]
    refine hfailed _ hb (.inr ⟨.file .notFound, ?_⟩)
    simp [prepare, hmissing, bind, Except.bind, Except.mapError]
  · rw [← hveto]
    exact houtside ⟨"c.go"⟩ rfl
  · rcases hinside _ ha with hkept | hrewritten
    · exact .inl (hkept.trans hread)
    · obtain ⟨content, source, rest, text, hcontent, hsource, hrest, htext, hnew⟩ := hrewritten
      simp only [hread, Except.ok.injEq] at hcontent
      rw [← hcontent, decodeText, Text.ofBytes?_bytes, Except.ok.injEq] at hsource
      have happly : Deletion.apply "T(x" (sampleSet.edits ⟨"a.go"⟩) = .ok "x" := by cbv
      rw [← hsource] at hrest
      simp only [happly, Except.ok.injEq] at hrest
      rw [← hrest] at htext
      rw [← Except.ok.inj htext] at hnew
      exact .inr hnew

end Apply

end ConvSweep
