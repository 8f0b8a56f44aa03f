import ConvSweep.Types.Basic

/-!
# Type identity

Declared types are identical when they come from one declaration, all others when they are built
alike. Struct tags count, the order of interface methods does not.

`identical` compares two types; `GoType.normal` is what a type is up to identity.
-/

namespace ConvSweep

/-- Methods by name; methods of one name keep their order. -/
def Method.sorted (ms : List Method) : List Method :=
  ms.mergeSort fun a b => decide (a.name ≤ b.name)

theorem Method.mem_sorted {m : Method} {ms : List Method} : m ∈ Method.sorted ms ↔ m ∈ ms :=
  List.mem_mergeSort

mutual

/-- Whether two types are identical. -/
def identical : GoType → GoType → Bool
  | .basic a, .basic b => a = b
  | .named a, .named b => a.id = b.id
  | .pointer a, .pointer b => identical a b
  | .slice a, .slice b => identical a b
  | .array m a, .array n b => m = n && identical a b
  | .map k a, .map l b => identical k l && identical a b
  | .chan d a, .chan e b => d = e && identical a b
  | .struct fs, .struct gs =>
    fs.length = gs.length && (fs.attach.zip gs).all fun (⟨⟨name, type, embedded, tag⟩, _⟩, g) =>
      name = g.name && embedded = g.embedded && tag = g.tag && identical type g.type
  | .func a, .func b => identicalSigs a b
  | .interface ms, .interface ns =>
    ms.length = ns.length &&
      ((Method.sorted ms).attach.zip (Method.sorted ns)).all fun (⟨⟨name, sig⟩, _⟩, n) =>
        name = n.name && identicalSigs sig n.sig
  | _, _ => false
termination_by a => sizeOf a
decreasing_by
  all_goals simp_wf
  all_goals try omega
  · have := List.sizeOf_lt_of_mem (by assumption)
    simp at this
    omega
  · have := List.sizeOf_lt_of_mem (Method.mem_sorted.1 (by assumption))
    simp at this
    omega

def identicalSigs : FuncSig → FuncSig → Bool
  | ⟨ps, rs, v⟩, ⟨ps', rs', v'⟩ => v = v' && identicalAll ps ps' && identicalAll rs rs'
termination_by s => sizeOf s

def identicalAll : List GoType → List GoType → Bool
  | [], [] => true
  | a :: as, b :: bs => identical a b && identicalAll as bs
  | _, _ => false
termination_by as => sizeOf as

end

/-! ## Normal forms -/

mutual

/-- A type with the methods of every interface sorted by name, and of every declared type only its
identity. -/
def GoType.normal : GoType → GoType
  | .basic k => .basic k
  | .named n => .named ⟨n.id, none, "", none⟩
  | .pointer a => .pointer a.normal
  | .slice a => .slice a.normal
  | .array n a => .array n a.normal
  | .map k a => .map k.normal a.normal
  | .chan d a => .chan d a.normal
  | .struct fs => .struct (FieldType.normalAll fs)
  | .func s => .func s.normal
  | .interface ms => .interface (Method.sorted (Method.normalAll ms))

def GoType.normalAll : List GoType → List GoType
  | [] => []
  | a :: as => a.normal :: GoType.normalAll as

def FieldType.normalAll : List FieldType → List FieldType
  | [] => []
  | ⟨name, type, embedded, tag⟩ :: fs =>
    ⟨name, type.normal, embedded, tag⟩ :: FieldType.normalAll fs

def FuncSig.normal : FuncSig → FuncSig
  | ⟨ps, rs, v⟩ => ⟨GoType.normalAll ps, GoType.normalAll rs, v⟩

def Method.normalAll : List Method → List Method
  | [] => []
  | ⟨name, sig⟩ :: ms => ⟨name, sig.normal⟩ :: Method.normalAll ms

end

end ConvSweep
