import ConvSweep.Path
import ConvSweep.Removal

/-!
# Edit sets

The removals found in each file, by path. A path that was reported without removals stays as an
empty entry, so that it vetoes every other report of the same path, earlier or later. Empty
entries are not visible from outside.
-/

namespace ConvSweep

/-- Removals by path, in path order; one path has one entry, under its first spelling. -/
structure EditSet where
  entries : List (Path × RemovalSet)
  sorted : entries.Pairwise fun a b => a.1.key < b.1.key

namespace EditSet

def empty : EditSet := ⟨[], .nil⟩

/-- Changes the entry of a path, or makes one at its place. -/
def alterEntries (p : Path) (f : Option RemovalSet → RemovalSet) :
    List (Path × RemovalSet) → List (Path × RemovalSet)
  | [] => [(p, f none)]
  | (q, s) :: es =>
    if p.key < q.key then (p, f none) :: (q, s) :: es
    else if q.key < p.key then (q, s) :: alterEntries p f es
    else (q, f (some s)) :: es

theorem mem_alterEntries {p : Path} {f : Option RemovalSet → RemovalSet}
    {es : List (Path × RemovalSet)} {x : Path × RemovalSet} (h : x ∈ alterEntries p f es) :
    x.1 = p ∨ ∃ y ∈ es, y.1 = x.1 := by
  induction es with
  | nil => simp_all [alterEntries]
  | cons e es ih => grind [alterEntries]

theorem pairwise_alterEntries (p : Path) (f : Option RemovalSet → RemovalSet)
    {es : List (Path × RemovalSet)} (h : es.Pairwise fun a b => a.1.key < b.1.key) :
    (alterEntries p f es).Pairwise fun a b => a.1.key < b.1.key := by
  induction es with
  | nil => simp [alterEntries]
  | cons e es ih =>
    obtain ⟨he, hes⟩ := List.pairwise_cons.1 h
    obtain ⟨q, s⟩ := e
    unfold alterEntries
    split
    · rename_i hpq
      refine List.pairwise_cons.2 ⟨fun x hx => ?_, h⟩
      rcases List.mem_cons.1 hx with rfl | hx
      · exact hpq
      · exact List.lt_trans hpq (he x hx)
    · split
      · rename_i hqp
        refine List.pairwise_cons.2 ⟨fun x hx => ?_, ih hes⟩
        rcases mem_alterEntries hx with hx | ⟨y, hy, hyx⟩
        · simpa [hx] using hqp
        · simpa [← hyx] using he y hy
      · exact List.pairwise_cons.2 ⟨he, hes⟩

def alter (set : EditSet) (p : Path) (f : Option RemovalSet → RemovalSet) : EditSet :=
  ⟨alterEntries p f set.entries, pairwise_alterEntries p f set.sorted⟩

/-- Records a report. A path that was reported before keeps the removals of both reports. -/
def insertFile (set : EditSet) (p : Path) (found : RemovalSet) : EditSet :=
  set.alter p fun
    | some s => s.inter found
    | none => found

/-- Enters the removals of a path in place of any that were there. -/
def put (set : EditSet) (p : Path) (found : RemovalSet) : EditSet := set.alter p fun _ => found

/-- The entry of a path, visible or not. -/
def entry? (set : EditSet) (p : Path) : Option RemovalSet :=
  (set.entries.find? fun e => e.1.key == p.key).map (·.2)

/-- Drops the empty entries. -/
def compact (set : EditSet) : EditSet :=
  ⟨set.entries.filter fun e => !e.2.isEmpty, set.sorted.filter _⟩

/-- Keeps what both sets remove from the same file, under the spelling of the first. -/
def inter (a b : EditSet) : EditSet :=
  let common := a.entries.map fun (p, s) => (p, s.inter ((b.entry? p).getD .empty))
  ⟨common.filter fun e => !e.2.isEmpty,
    (List.pairwise_map.2 (by simpa [common] using a.sorted)).filter _⟩

/-! ## What is visible -/

/-- The files with removals, in path order. -/
def files (set : EditSet) : List (Path × RemovalSet) :=
  set.entries.filter fun e => !e.2.isEmpty

def isEmpty (set : EditSet) : Bool := set.entries.all fun e => e.2.isEmpty

/-- The number of removals. -/
def size (set : EditSet) : Nat := set.entries.foldl (fun n e => n + e.2.size) 0

/-- The removals of a path, if there are any. -/
def removals? (set : EditSet) (p : Path) : Option RemovalSet :=
  (set.entry? p).filter fun s => !s.isEmpty

/-- Every range to delete from a file. -/
def edits (set : EditSet) (p : Path) : List Edit :=
  match set.entry? p with
  | some s => s.edits
  | none => []

/-- Sets are the same when the same removals are visible; spellings do not count. -/
def same (a b : EditSet) : Bool :=
  (a.files.map fun e => (e.1.key, e.2.toList)) == (b.files.map fun e => (e.1.key, e.2.toList))

end EditSet

end ConvSweep
