import ConvSweep.Proofs.Exchange

/-! # Paths that a document lists twice

A document lists entries, each a path with removals, and a path may come more than once, also under
different spellings. Reports of a file narrow one another down, but of listed entries the last one
decides.
-/

namespace ConvSweep

open Json

/-! ## Decoded records -/

namespace Json

variable {σ τ : Type}

section

variable {ε α β γ : Type} {x : Except ε α}

theorem bind_eq_ok {f : α → Except ε β} {b : β} :
    (x >>= f) = .ok b ↔ ∃ a, x = .ok a ∧ f a = .ok b := by
  cases x with
  | error e => simp [bind, Except.bind]
  | ok a => simp [bind, Except.bind]

theorem bind_map (g : α → β) (f : β → Except ε γ) : (x.map g >>= f) = x >>= fun a => f (g a) := by
  cases x with
  | error e => rfl
  | ok a => rfl

theorem map_bind (f : α → Except ε β) (g : β → γ) : (x >>= f).map g = x >>= fun a => (f a).map g := by
  cases x with
  | error e => rfl
  | ok a => rfl

end

/-- The field `f'` does with the images under `g` what `f` does. -/
structure RecordField.Maps (g : σ → τ) (f : RecordField σ) (f' : RecordField τ) : Prop where
  name : f'.name = f.name
  isSet : ∀ s, f'.isSet (g s) = f.isSet s
  set : ∀ v s, f'.set v (g s) = (f.set v s).map g
  missing : f.missing = none ∧ f'.missing = none

namespace RecordField.Maps

variable {g : σ → τ} {f : RecordField σ} {f' : RecordField τ}

theorem settle (h : Maps g f f') (s : σ) : f'.settle (g s) = (f.settle s).map g := by
  unfold RecordField.settle
  rw [h.isSet, h.missing.1, h.missing.2]
  split
  · rfl
  · rfl

theorem readMembers (h : Maps g f f') (ms : List (Except Fault String × Value)) (s : σ) :
    Value.readMembers [f'] ms (g s) = (Value.readMembers [f] ms s).map g := by
  induction ms generalizing s with
  | nil => rfl
  | cons m ms ih =>
    obtain ⟨key, v⟩ := m
    cases key with
    | error e => rfl
    | ok name =>
      by_cases hname : f.name = name
      · simp only [Value.readMembers, List.find?_cons, h.name, hname, decide_true, h.isSet, h.set]
        split
        · rfl
        · rw [bind_map, map_bind]
          simp only [ih]
      · simp only [Value.readMembers, List.find?_cons, List.find?_nil, h.name, hname, decide_false,
          map_bind, ih]

theorem readItems (h : Maps g f f') (ending : Ending) (vs : List Value) (s : σ) :
    Value.readItems ending [f'] vs (g s) = (Value.readItems ending [f] vs s).map g := by
  have hdone : ∀ s, Value.readItems ending [] [] (g s) = (Value.readItems ending [] [] s).map g := by
    intro s
    simp only [Value.readItems, map_bind]
    rfl
  cases vs with
  | nil =>
    rw [Value.readItems, Value.readItems]
    simp only [h.settle, bind_map, map_bind, hdone]
  | cons v vs =>
    rw [Value.readItems, Value.readItems, h.set, bind_map, map_bind]
    cases vs with
    | nil => simp only [hdone]
    | cons w ws => rfl

theorem toRecord (h : Maps g f f') (s : σ) (v : Value) :
    v.toRecord [f'] (g s) = (v.toRecord [f] s).map g := by
  cases v with
  | object members ending =>
    simp only [Value.toRecord, h.readMembers, List.foldlM_cons, List.foldlM_nil, h.settle, bind_map,
      map_bind]
    rfl
  | array items ending => exact h.readItems ending items s
  | null => rfl
  | bool b => rfl
  | number n => rfl
  | string content => rfl
  | broken read skipped => rfl

end RecordField.Maps

/-! ## Decoded numbers -/

/-- What every field keeps holds of a record. -/
structure Keeps (P : σ → Prop) (fields : List (RecordField σ)) : Prop where
  set : ∀ f ∈ fields, ∀ v s s', P s → f.set v s = .ok s' → P s'
  missing : ∀ f ∈ fields, f.missing = none

namespace Keeps

variable {P : σ → Prop} {fields : List (RecordField σ)} {s s' : σ}

theorem settle (h : Keeps P fields) {f : RecordField σ} (hf : f ∈ fields)
    (hs' : f.settle s = .ok s') : s' = s := by
  unfold RecordField.settle at hs'
  rw [h.missing f hf] at hs'
  split at hs'
  · exact (Except.ok.inj hs').symm
  · cases hs'

theorem tail {f : RecordField σ} (h : Keeps P (f :: fields)) : Keeps P fields where
  set f' hf' := h.set f' (List.mem_cons_of_mem _ hf')
  missing f' hf' := h.missing f' (List.mem_cons_of_mem _ hf')

theorem readMembers (h : Keeps P fields) {ms : List (Except Fault String × Value)} (hs : P s)
    (hs' : Value.readMembers fields ms s = .ok s') : P s' := by
  fun_induction Value.readMembers fields ms s with
  | case1 s =>
    cases hs'
    exact hs
  | case2 => cases hs'
  | case3 name v ms s hfind ih =>
    obtain ⟨-, -, hs'⟩ := bind_eq_ok.mp hs'
    exact ih hs hs'
  | case4 => cases hs'
  | case5 name v ms s f hfind rest hset ih =>
    obtain ⟨s₁, hs₁, hs'⟩ := bind_eq_ok.mp hs'
    exact ih s₁ (h.set f (List.mem_of_find?_eq_some hfind) v s s₁ hs hs₁) hs'

theorem readItems (h : Keeps P fields) {ending : Ending} {vs : List Value} (hs : P s)
    (hs' : Value.readItems ending fields vs s = .ok s') : P s' := by
  induction fields generalizing vs s with
  | nil =>
    cases vs with
    | nil =>
      obtain ⟨-, -, hs'⟩ := bind_eq_ok.mp hs'
      cases hs'
      exact hs
    | cons v vs => cases hs'
  | cons f fields ih =>
    cases vs with
    | nil =>
      obtain ⟨-, -, hs'⟩ := bind_eq_ok.mp hs'
      obtain ⟨s₁, hs₁, hrest⟩ := bind_eq_ok.mp hs'
      rw [h.settle List.mem_cons_self hs₁] at hrest
      exact ih h.tail hs hrest
    | cons v vs =>
      obtain ⟨s₁, hs₁, hs'⟩ := bind_eq_ok.mp hs'
      exact ih h.tail (h.set f List.mem_cons_self v s s₁ hs hs₁) hs'

theorem settleAll (h : Keeps P fields) (hs : P s)
    (hs' : fields.foldlM (fun s f => f.settle s) s = .ok s') : P s' := by
  induction fields generalizing s with
  | nil =>
    cases hs'
    exact hs
  | cons f fields ih =>
    obtain ⟨s₁, hs₁, hrest⟩ := bind_eq_ok.mp hs'
    rw [h.settle List.mem_cons_self hs₁] at hrest
    exact ih h.tail hs hrest

theorem toRecord (h : Keeps P fields) {v : Value} (hs : P s)
    (hs' : v.toRecord fields s = .ok s') : P s' := by
  unfold Value.toRecord at hs'
  split at hs'
  · obtain ⟨s₁, hs₁, hs'⟩ := bind_eq_ok.mp hs'
    obtain ⟨-, -, hs'⟩ := bind_eq_ok.mp hs'
    exact h.settleAll (h.readMembers hs hs₁) hs'
  · exact h.readItems hs hs'
  · cases hs'

end Keeps

theorem mem_of_mapM_eq_ok {ε α β : Type} {f : α → Except ε β} {as : List α} {bs : List β}
    (h : as.mapM f = .ok bs) : ∀ b ∈ bs, ∃ a ∈ as, f a = .ok b := by
  induction as generalizing bs with
  | nil =>
    cases h
    simp
  | cons a as ih =>
    rw [List.mapM_cons] at h
    obtain ⟨b, hb, h⟩ := bind_eq_ok.mp h
    obtain ⟨bs', hbs', h⟩ := bind_eq_ok.mp h
    cases h
    intro c hc
    rcases List.mem_cons.mp hc with rfl | hc
    · exact ⟨a, List.mem_cons_self, hb⟩
    · obtain ⟨a', ha', hc⟩ := ih hbs' c hc
      exact ⟨a', List.mem_cons_of_mem _ ha', hc⟩

theorem Value.toList_eq_ok {α : Type} {f : Value → Decoded α} {v : Value} {as : List α}
    (h : v.toList f = .ok as) : ∀ a ∈ as, ∃ w, f w = .ok a := by
  unfold Value.toList at h
  split at h
  · obtain ⟨bs, hbs, h⟩ := bind_eq_ok.mp h
    obtain ⟨-, -, h⟩ := bind_eq_ok.mp h
    cases h
    intro a ha
    obtain ⟨w, -, hw⟩ := mem_of_mapM_eq_ok hbs a ha
    exact ⟨w, hw⟩
  · cases h

theorem Value.toMembers_eq_ok {α : Type} {f : Value → Decoded α} {v : Value}
    {as : List (String × α)} (h : v.toMembers f = .ok as) : ∀ a ∈ as, ∃ w, f w = .ok a.2 := by
  unfold Value.toMembers at h
  split at h
  · obtain ⟨bs, hbs, h⟩ := bind_eq_ok.mp h
    obtain ⟨-, -, h⟩ := bind_eq_ok.mp h
    cases h
    intro a ha
    obtain ⟨⟨key, w⟩, -, hw⟩ := mem_of_mapM_eq_ok hbs a ha
    cases key with
    | error e => cases hw
    | ok name =>
      obtain ⟨b, hb, hw⟩ := bind_eq_ok.mp hw
      cases hw
      exact ⟨w, hb⟩
  · cases h

theorem Value.lt_limit_of_toNat {v : Value} {n : Nat} (h : v.toNat = .ok n) : n < Number.limit := by
  unfold toNat at h
  split at h
  · rename_i k
    unfold Number.toNat? at h
    grind
  · cases h

end Json

/-! ## Listings -/

theorem Edit.storable_of_ofJson {v : Value} {e : Edit} (h : ofJson v = .ok e) : e.Storable := by
  obtain ⟨⟨start, stop⟩, hrecord, h⟩ := bind_eq_ok.mp h
  have hkeeps : Keeps (fun s => (∀ n ∈ s.1, n < Number.limit) ∧ ∀ n ∈ s.2, n < Number.limit)
      fields := by
    constructor
    · simp only [fields, List.forall_mem_cons, List.not_mem_nil, false_implies, implies_true, and_true]
      constructor
      · intro v s s' hs hset
        obtain ⟨n, hn, hset⟩ := bind_eq_ok.mp hset
        cases hset
        simpa using ⟨Value.lt_limit_of_toNat hn, hs.2⟩
      · intro v s s' hs hset
        obtain ⟨n, hn, hset⟩ := bind_eq_ok.mp hset
        cases hset
        simpa using ⟨hs.1, Value.lt_limit_of_toNat hn⟩
    · simp [fields]
  have hstored := hkeeps.toRecord (by simp) hrecord
  cases start with
  | none => cases h
  | some start =>
    cases stop with
    | none => cases h
    | some stop =>
      cases h
      simpa [Storable] using hstored

theorem Removal.storable_of_ofJson {v : Value} {r : Removal} (h : ofJson v = .ok r) :
    r.Storable := by
  obtain ⟨⟨lparen, edits⟩, hrecord, h⟩ := bind_eq_ok.mp h
  have hkeeps : Keeps (fun s => (∀ n ∈ s.1, n < Number.limit) ∧ ∀ es ∈ s.2, ∀ e ∈ es, e.Storable)
      fields := by
    constructor
    · simp only [fields, List.forall_mem_cons, List.not_mem_nil, false_implies, implies_true, and_true]
      constructor
      · intro v s s' hs hset
        obtain ⟨n, hn, hset⟩ := bind_eq_ok.mp hset
        cases hset
        simpa using ⟨Value.lt_limit_of_toNat hn, hs.2⟩
      · intro v s s' hs hset
        obtain ⟨es, hes, hset⟩ := bind_eq_ok.mp hset
        cases hset
        have hstorable : ∀ e ∈ es, e.Storable := by
          intro e he
          obtain ⟨w, hw⟩ := Value.toList_eq_ok hes e he
          exact Edit.storable_of_ofJson hw
        simpa using ⟨hs.1, hstorable⟩
    · simp [fields]
  have hstored := hkeeps.toRecord (by simp) hrecord
  cases lparen with
  | none => cases h
  | some lparen =>
    cases edits with
    | none => cases h
    | some edits =>
      cases h
      simpa [Storable] using hstored

namespace EditSet

/-- The field of a document, for the entries as they are listed. -/
def listedField : RecordField (Option (List (String × List Removal))) :=
  ⟨"files", (·.isSome), fun v _ => do
    return some (← v.toMembers (Value.toList Removal.ofJson)), none⟩

def entriesOfJson (v : Value) : Decoded (List (String × List Removal)) := do
  match ← v.toRecord [listedField] none with
  | some es => return es
  | none => throw .wrongShape

/-- The entries of a document in the order of the text. -/
def listing (bytes : List UInt8) : Decoded (List (String × List Removal)) :=
  (Document.ofBytes bytes).decode entriesOfJson

variable {bytes : List UInt8} {es es' : List (String × List Removal)} {p : Path} {r : Removal}

theorem maps_fields : ∃ f, fields = [f] ∧ RecordField.Maps (Option.map ofFiles) listedField f := by
  refine ⟨_, rfl, rfl, ?_, ?_, rfl, rfl⟩
  · intro s
    exact Option.isSome_map
  · intro v s
    simp only [listedField]
    cases v.toMembers (Value.toList Removal.ofJson) with
    | error e => rfl
    | ok es => rfl

theorem ofJson_eq (v : Value) :
    ofJson v = (entriesOfJson v).map fun es => (ofFiles es).compact := by
  obtain ⟨f, hf, hmaps⟩ := maps_fields
  have hrecord := hmaps.toRecord none v
  unfold ofJson entriesOfJson
  rw [hf]
  rw [Option.map_none] at hrecord
  rw [hrecord]
  cases v.toRecord [listedField] none with
  | error e => rfl
  | ok s =>
    cases s with
    | none => rfl
    | some es => rfl

theorem read_eq_listing (bytes : List UInt8) :
    read bytes = (listing bytes).map fun es => (ofFiles es).compact := by
  unfold read listing Document.decode
  rw [ofJson_eq]
  cases entriesOfJson (Document.ofBytes bytes).root with
  | error e => rfl
  | ok es =>
    cases (Document.ofBytes bytes).trailing with
    | false => rfl
    | true => rfl

theorem storable_of_listing (h : listing bytes = .ok es) : ∀ x ∈ es, ∀ r ∈ x.2, r.Storable := by
  obtain ⟨es', hes', h⟩ := bind_eq_ok.mp h
  have heq : es' = es := by
    split at h
    · cases h
    · exact Except.ok.inj h
  subst heq
  obtain ⟨s, hs, h⟩ := bind_eq_ok.mp hes'
  have hkeeps : Keeps (fun s => ∀ es ∈ s, ∀ x ∈ es, ∀ r ∈ x.2, r.Storable) [listedField] := by
    constructor
    · rintro f hf v s s' - hset x rfl y hy r hr
      obtain rfl := List.mem_singleton.mp hf
      obtain ⟨es, hes, hset⟩ := bind_eq_ok.mp hset
      cases hset
      obtain ⟨w, hw⟩ := Value.toMembers_eq_ok hes y hy
      obtain ⟨u, hu⟩ := Value.toList_eq_ok hw r hr
      exact Removal.storable_of_ofJson hu
    · simp [listedField]
  have hstored := hkeeps.toRecord (by simp) hs
  cases s with
  | none => cases h
  | some es =>
    cases h
    exact hstored es' rfl

/-- A document with these entries. -/
def writeListing (es : List (String × List Removal)) : String :=
  Writer.object 0
    [("files", Writer.object 1 (es.map fun x => (x.1, Writer.array 2 (x.2.map (Removal.toJson 3)))))]

theorem listing_writeListing (h : ∀ x ∈ es, ∀ r ∈ x.2, r.Storable) :
    listing (Text.bytes (writeListing es)) = .ok es := by
  have hentries : ∀ x ∈ es,
      Reads (Value.toList Removal.ofJson) (Writer.array 2 (x.2.map (Removal.toJson 3))) x.2 :=
    fun x hx => reads_array (fun r hr => Removal.reads (h x hx r hr) 3) 2
  obtain ⟨v, hv, hmembers⟩ :=
    @reads_members (List Removal) _ (fun rs => Writer.array 2 (rs.map (Removal.toJson 3))) _
      hentries 1
  refine Reads.decode ⟨.object [(.ok "files", v)] .closed,
    spells_object (.cons ⟨rfl, hv⟩ .nil), ?_⟩
  have hfield : Value.toRecord [listedField] none (.object [(.ok "files", v)] .closed) =
      .ok (some es) := by
    simp [listedField, Value.toRecord, Value.readMembers, hmembers]
    rfl
  unfold entriesOfJson
  rw [hfield]
  rfl

/-! ## The last entry decides -/

/-- The entries as what they say: a path, however it is spelled, and a set of removals. -/
def listed (es : List (String × List Removal)) : List (List (List Nat) × Finset Removal) :=
  es.map fun x => ((⟨x.1⟩ : Path).key, x.2.toFinset)

theorem entry?_put {set : EditSet} {q : Path} {s : RemovalSet} :
    EditSet.entry? (set.put p s) q = if p.key = q.key then some s else set.entry? q := by
  unfold put alter entry?
  rw [find?_alterEntries set.sorted]

theorem has_ofFiles :
    (ofFiles es).Has p r ↔ ∃ e, (listed es).reverse.find? (·.1 = p.key) = some e ∧ r ∈ e.2 := by
  induction es using List.reverseRecOn with
  | nil => simp [ofFiles, listed, has_iff_exists_entry, entry?, empty]
  | append_singleton es x ih =>
    have hput : ofFiles (es ++ [x]) = (ofFiles es).put ⟨x.1⟩ (.ofList x.2) := by
      simp [ofFiles]
    have hlisted : (listed (es ++ [x])).reverse =
        ((⟨x.1⟩ : Path).key, x.2.toFinset) :: (listed es).reverse := by
      simp [listed]
    rw [hput, hlisted, has_iff_exists_entry, entry?_put, List.find?_cons]
    by_cases hx : (⟨x.1⟩ : Path).key = p.key
    · simp [hx, RemovalSet.mem_ofList]
    · simp only [hx, decide_false, if_false]
      rw [← has_iff_exists_entry]
      exact ih

/-- The set that the entries make as reports, one after the other. -/
def reported (es : List (String × List Removal)) : EditSet :=
  es.foldl (fun set x => set.insertFile ⟨x.1⟩ (.ofList x.2)) empty

theorem has_reported : (reported es).Has p r ↔
    (∃ e ∈ listed es, e.1 = p.key) ∧ ∀ e ∈ listed es, e.1 = p.key → r ∈ e.2 := by
  have hfold : reported es =
      (es.map fun x => ((⟨x.1⟩ : Path), RemovalSet.ofList x.2)).foldl
        (fun set x => set.insertFile x.1 x.2) empty := by
    rw [List.foldl_map]
    rfl
  unfold listed
  rw [hfold, Analysis.has_foldl_insertFile, List.forall_mem_map, List.forall_mem_map]
  simp [empty, entry?, RemovalSet.mem_ofList]

/-- The same entries in another order, each with its removals in another order or repeated, and its
path perhaps spelled otherwise. -/
def Rearranged (es es' : List (String × List Removal)) : Prop := (listed es).Perm (listed es')

/-- Entries of the same path have the same removals. -/
def Agreeing (es : List (String × List Removal)) : Prop :=
  ∀ x ∈ listed es, ∀ y ∈ listed es, x.1 = y.1 → x.2 = y.2

theorem has_ofFiles_iff_reported (h : Agreeing es) :
    (ofFiles es).Has p r ↔ (reported es).Has p r := by
  rw [has_ofFiles, has_reported]
  constructor
  · rintro ⟨e, he, hr⟩
    have hmem : e ∈ listed es := List.mem_reverse.mp (List.mem_of_find?_eq_some he)
    have hkey : e.1 = p.key := by simpa using List.find?_some he
    refine ⟨⟨e, hmem, hkey⟩, fun x hx hxp => ?_⟩
    rw [h x hx e hmem (hxp.trans hkey.symm)]
    exact hr
  · rintro ⟨⟨x, hx, hxp⟩, hall⟩
    cases hfind : (listed es).reverse.find? (·.1 = p.key) with
    | none =>
      have := List.find?_eq_none.mp hfind x (List.mem_reverse.mpr hx)
      simp [hxp] at this
    | some e =>
      have hmem : e ∈ listed es := List.mem_reverse.mp (List.mem_of_find?_eq_some hfind)
      have hkey : e.1 = p.key := by simpa using List.find?_some hfind
      exact ⟨e, rfl, hall e hmem hkey⟩

theorem Agreeing.of_rearranged (h : Agreeing es) (hes : Rearranged es es') : Agreeing es' :=
  fun x hx y hy => h x (hes.mem_iff.mpr hx) y (hes.mem_iff.mpr hy)

theorem has_reported_congr (hes : Rearranged es es') :
    (reported es').Has p r ↔ (reported es).Has p r := by
  simp only [has_reported, hes.mem_iff]

theorem exists_listing_last (h : listing bytes = .ok es) {x : List (List Nat) × Finset Removal}
    (hx : x ∈ listed es) :
    ∃ bytes' es', listing bytes' = .ok es' ∧ Rearranged es es' ∧
      ∀ p : Path, p.key = x.1 → ∀ r, (ofFiles es').Has p r ↔ r ∈ x.2 := by
  obtain ⟨y, hy, rfl⟩ := List.mem_map.mp hx
  obtain ⟨front, back, rfl⟩ := List.append_of_mem hy
  have hperm : (front ++ y :: back).Perm (front ++ back ++ [y]) := by
    rw [List.append_assoc]
    exact List.Perm.append_left _ (List.perm_append_singleton y back).symm
  refine ⟨Text.bytes (writeListing (front ++ back ++ [y])), front ++ back ++ [y],
    listing_writeListing fun z hz => storable_of_listing h z (hperm.mem_iff.mpr hz),
    hperm.map _, fun p hp r => ?_⟩
  have hlast : (listed (front ++ back ++ [y])).reverse.find? (·.1 = p.key) =
      some ((⟨y.1⟩ : Path).key, y.2.toFinset) := by
    simp [listed, hp]
  rw [has_ofFiles, hlast]
  simp

theorem read_of_listing (h : listing bytes = .ok es) :
    read bytes = .ok (ofFiles es).compact := by
  rw [read_eq_listing, h]
  rfl

theorem agreeing_of_same (h : listing bytes = .ok es) {set : EditSet}
    (hsame : ∀ bytes' es', listing bytes' = .ok es' → Rearranged es es' →
      ∃ set', read bytes' = .ok set' ∧ set'.same set = true) : Agreeing es := by
  -- Any entry may come last in a document with the same entries, and is then the one that is read.
  have hlast : ∀ x ∈ listed es, ∀ p : Path, p.key = x.1 → ∀ r, set.Has p r ↔ r ∈ x.2 := by
    intro x hx p hp r
    obtain ⟨bytes', es', hlisting, hes, hhas⟩ := exists_listing_last h hx
    obtain ⟨set', hset', heq⟩ := hsame bytes' es' hlisting hes
    rw [read_of_listing hlisting, Except.ok.injEq] at hset'
    subst hset'
    rw [← same_iff.mp heq p r, has_compact, hhas p hp]
  intro x hx y hy hxy
  obtain ⟨z, -, hz⟩ := List.mem_map.mp hx
  have hkey : (⟨z.1⟩ : Path).key = x.1 := congrArg Prod.fst hz
  ext r
  rw [← hlast x hx _ hkey, ← hlast y hy _ (hkey.trans hxy)]

/-- A set that is read holds what the last entry of each path lists. What is read depends on the
order of the entries, and differs from what reports would leave, exactly if two entries of one path
disagree. -/
theorem last_listed_entry_decides (h : listing bytes = .ok es) :
    ∃ set, read bytes = .ok set ∧
      (∀ p r, set.Has p r ↔
        ∃ e, (listed es).reverse.find? (·.1 = p.key) = some e ∧ r ∈ e.2) ∧
      (Agreeing es ↔ ∀ bytes' es', listing bytes' = .ok es' → Rearranged es es' →
        ∃ set', read bytes' = .ok set' ∧ set'.same set = true) ∧
      (Agreeing es ↔ ∀ bytes' es', listing bytes' = .ok es' → Rearranged es es' →
        ∃ set', read bytes' = .ok set' ∧ set'.same (reported es) = true) := by
  have hreported : Agreeing es → ∀ es', Rearranged es es' →
      ∀ p r, (ofFiles es').compact.Has p r ↔ (reported es).Has p r := by
    intro hagree es' hes p r
    rw [has_compact, has_ofFiles_iff_reported (hagree.of_rearranged hes), has_reported_congr hes]
  refine ⟨_, read_of_listing h, fun p r => has_compact.trans has_ofFiles,
    ⟨fun hagree bytes' es' hlisting hes => ⟨_, read_of_listing hlisting, ?_⟩, agreeing_of_same h⟩,
    ⟨fun hagree bytes' es' hlisting hes => ⟨_, read_of_listing hlisting, ?_⟩, agreeing_of_same h⟩⟩
  · rw [same_iff]
    intro p r
    rw [hreported hagree es' hes, hreported hagree es (List.Perm.refl _)]
  · rw [same_iff]
    exact hreported hagree es' hes

/-- One file under two spellings, with the same removals, beside a file without any. -/
def twiceListed : List (String × List Removal) :=
  [("p//a.go", [⟨9, []⟩, ⟨5, [⟨0, 5⟩]⟩]), ("p/b.go", []),
    ("p/a.go", [⟨5, [⟨0, 5⟩]⟩, ⟨9, []⟩, ⟨5, [⟨0, 5⟩]⟩])]

theorem listing_twiceListed : listing (Text.bytes (writeListing twiceListed)) = .ok twiceListed :=
  listing_writeListing (by
    simp [twiceListed, Removal.Storable, Edit.Storable, Number.limit])

theorem twiceListed_reads_as_reported :
    listing (Text.bytes (writeListing twiceListed)) = .ok twiceListed ∧ Agreeing twiceListed ∧
      ∃ set, read (Text.bytes (writeListing twiceListed)) = .ok set ∧
        set.Has ⟨"p/./a.go"⟩ ⟨9, []⟩ ∧ set.same (reported twiceListed) = true := by
  have hagree : Agreeing twiceListed := by
    unfold Agreeing
    decide +kernel
  obtain ⟨set, hset, hhas, -, hreported⟩ := last_listed_entry_decides listing_twiceListed
  obtain ⟨set', hset', hsame⟩ := hreported.mp hagree _ _ listing_twiceListed (List.Perm.refl _)
  rw [hset, Except.ok.injEq] at hset'
  subst hset'
  refine ⟨listing_twiceListed, hagree, set, hset, ?_, hsame⟩
  rw [hhas]
  exact ⟨(listed twiceListed)[2], by decide +kernel, by decide +kernel⟩

/-- A file that is listed without removals and then with one. -/
def vetoedFirst : List (String × List Removal) :=
  [("p//a.go", []), ("p/a.go", [⟨5, [⟨0, 6⟩, ⟨7, 8⟩]⟩])]

/-- The veto comes too early: the removal is read, though not if the entries change places, nor from
two such reports. -/
theorem vetoedFirst_keeps_removal :
    ∃ set set', listing (Text.bytes (writeListing vetoedFirst)) = .ok vetoedFirst ∧
      listing (Text.bytes (writeListing vetoedFirst.reverse)) = .ok vetoedFirst.reverse ∧
      Rearranged vetoedFirst vetoedFirst.reverse ∧
      read (Text.bytes (writeListing vetoedFirst)) = .ok set ∧
      read (Text.bytes (writeListing vetoedFirst.reverse)) = .ok set' ∧
      set.Has ⟨"p/a.go"⟩ ⟨5, [⟨0, 6⟩, ⟨7, 8⟩]⟩ ∧ set'.isEmpty = true ∧
      (reported vetoedFirst).isEmpty = true ∧ set.same set' = false ∧
      set.same (reported vetoedFirst) = false := by
  have hlisting : listing (Text.bytes (writeListing vetoedFirst)) = .ok vetoedFirst :=
    listing_writeListing (by
      simp [vetoedFirst, Removal.Storable, Edit.Storable, Number.limit])
  have hreverse : listing (Text.bytes (writeListing vetoedFirst.reverse)) =
      .ok vetoedFirst.reverse :=
    listing_writeListing (by
      simp [vetoedFirst, Removal.Storable, Edit.Storable, Number.limit])
  refine ⟨_, _, hlisting, hreverse, (List.reverse_perm _).symm.map _, read_of_listing hlisting,
    read_of_listing hreverse, ?_, by decide +kernel, by decide +kernel, by decide +kernel,
    by decide +kernel⟩
  rw [has_compact, has_ofFiles]
  exact ⟨(listed vetoedFirst)[1], by decide +kernel, by decide +kernel⟩

end EditSet

end ConvSweep
