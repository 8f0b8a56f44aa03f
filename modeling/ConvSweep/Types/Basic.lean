import ConvSweep.Token

/-!
# Types

Types as the checker resolved them. A declared type is known by the identity of its declaration;
its underlying basic kind is kept beside it, so that nobody has to look the declaration up.
-/

namespace ConvSweep

/-- The predeclared basic types, and the kinds of untyped constants. -/
inductive BasicKind
  | bool
  | int | int8 | int16 | int32 | int64
  | uint | uint8 | uint16 | uint32 | uint64 | uintptr
  | float32 | float64 | complex64 | complex128
  | string | unsafePointer
  | untypedBool | untypedInt | untypedRune | untypedFloat | untypedComplex | untypedString
  | untypedNil
  deriving DecidableEq, Repr

namespace BasicKind

def isUntyped : BasicKind → Bool
  | untypedBool | untypedInt | untypedRune | untypedFloat | untypedComplex | untypedString
  | untypedNil => true
  | _ => false

/-- The floating-point and complex kinds, typed or not. -/
def isFloating : BasicKind → Bool
  | float32 | float64 | complex64 | complex128 | untypedFloat | untypedComplex => true
  | _ => false

def spelling : BasicKind → String
  | bool => "bool"
  | int => "int"
  | int8 => "int8"
  | int16 => "int16"
  | int32 => "int32"
  | int64 => "int64"
  | uint => "uint"
  | uint8 => "uint8"
  | uint16 => "uint16"
  | uint32 => "uint32"
  | uint64 => "uint64"
  | uintptr => "uintptr"
  | float32 => "float32"
  | float64 => "float64"
  | complex64 => "complex64"
  | complex128 => "complex128"
  | string => "string"
  | unsafePointer => "unsafe.Pointer"
  | untypedBool => "untyped bool"
  | untypedInt => "untyped int"
  | untypedRune => "untyped rune"
  | untypedFloat => "untyped float"
  | untypedComplex => "untyped complex"
  | untypedString => "untyped string"
  | untypedNil => "untyped nil"

end BasicKind

/-- A declared type. -/
structure NamedType where
  /-- The identity of the declaration. -/
  id : Nat
  /-- The declaring package; none for the types that are always in scope. -/
  pkg : Option String
  name : String
  /-- The underlying basic kind, if there is one. -/
  basic : Option BasicKind
  deriving DecidableEq, Repr

mutual

inductive GoType
  | basic (kind : BasicKind)
  | named (type : NamedType)
  | pointer (elem : GoType)
  | slice (elem : GoType)
  | array (len : Nat) (elem : GoType)
  | map (key value : GoType)
  | chan (dir : ChanDir) (elem : GoType)
  | struct (fields : List FieldType)
  | func (sig : FuncSig)
  | interface (methods : List Method)

structure FieldType where
  name : String
  type : GoType
  embedded : Bool
  /-- The tag, if one is written; an empty tag is a tag. -/
  tag : Option String

structure FuncSig where
  params : List GoType
  results : List GoType
  /-- The last parameter takes any number of values. -/
  variadic : Bool

structure Method where
  name : String
  sig : FuncSig

end

namespace GoType

instance : Inhabited GoType := ⟨.basic .bool⟩

/-- Whether the type, or its underlying basic kind, is floating-point or complex. -/
def isFloating : GoType → Bool
  | basic kind => kind.isFloating
  | named type => type.basic.any BasicKind.isFloating
  | _ => false

/-- Whether the type is a kind of untyped constants. -/
def isUntyped : GoType → Bool
  | basic kind => kind.isUntyped
  | _ => false

end GoType

/-! ## Equality -/

mutual

/-- Whether two types are written with the same parts throughout. -/
def GoType.same : GoType → GoType → Bool
  | .basic a, .basic b => a = b
  | .named a, .named b => a = b
  | .pointer a, .pointer b => a.same b
  | .slice a, .slice b => a.same b
  | .array m a, .array n b => m = n && a.same b
  | .map k a, .map l b => k.same l && a.same b
  | .chan d a, .chan e b => d = e && a.same b
  | .struct a, .struct b => FieldType.sameAll a b
  | .func a, .func b => a.same b
  | .interface a, .interface b => Method.sameAll a b
  | _, _ => false

def GoType.sameAll : List GoType → List GoType → Bool
  | [], [] => true
  | a :: as, b :: bs => a.same b && GoType.sameAll as bs
  | _, _ => false

def FieldType.sameAll : List FieldType → List FieldType → Bool
  | [], [] => true
  | ⟨n, a, e, t⟩ :: as, ⟨n', b, e', t'⟩ :: bs =>
    n = n' && a.same b && e = e' && t = t' && FieldType.sameAll as bs
  | _, _ => false

def FuncSig.same : FuncSig → FuncSig → Bool
  | ⟨ps, rs, v⟩, ⟨ps', rs', v'⟩ => GoType.sameAll ps ps' && GoType.sameAll rs rs' && v = v'

def Method.sameAll : List Method → List Method → Bool
  | [], [] => true
  | ⟨n, a⟩ :: as, ⟨n', b⟩ :: bs => n = n' && a.same b && Method.sameAll as bs
  | _, _ => false

end

mutual

theorem GoType.same_iff : ∀ a b : GoType, a.same b = true ↔ a = b
  | .basic _, b => by cases b <;> simp [GoType.same]
  | .named _, b => by cases b <;> simp [GoType.same]
  | .pointer a, b => by cases b <;> simp [GoType.same, GoType.same_iff a]
  | .slice a, b => by cases b <;> simp [GoType.same, GoType.same_iff a]
  | .array _ a, b => by cases b <;> simp [GoType.same, GoType.same_iff a]
  | .map k a, b => by cases b <;> simp [GoType.same, GoType.same_iff k, GoType.same_iff a]
  | .chan _ a, b => by cases b <;> simp [GoType.same, GoType.same_iff a]
  | .struct a, b => by cases b <;> simp [GoType.same, FieldType.sameAll_iff a]
  | .func a, b => by cases b <;> simp [GoType.same, FuncSig.same_iff a]
  | .interface a, b => by cases b <;> simp [GoType.same, Method.sameAll_iff a]

theorem GoType.sameAll_iff : ∀ as bs : List GoType, GoType.sameAll as bs = true ↔ as = bs
  | [], bs => by cases bs <;> simp [GoType.sameAll]
  | a :: as, [] => by simp [GoType.sameAll]
  | a :: as, b :: bs => by simp [GoType.sameAll, GoType.same_iff a b, GoType.sameAll_iff as bs]

theorem FieldType.sameAll_iff :
    ∀ as bs : List FieldType, FieldType.sameAll as bs = true ↔ as = bs
  | [], bs => by cases bs <;> simp [FieldType.sameAll]
  | a :: as, [] => by simp [FieldType.sameAll]
  | ⟨_, a, _, _⟩ :: as, ⟨_, b, _, _⟩ :: bs => by
    simp [FieldType.sameAll, GoType.same_iff a b, FieldType.sameAll_iff as bs, and_assoc]

theorem FuncSig.same_iff : ∀ a b : FuncSig, a.same b = true ↔ a = b
  | ⟨ps, rs, _⟩, ⟨ps', rs', _⟩ => by
    simp [FuncSig.same, GoType.sameAll_iff ps ps', GoType.sameAll_iff rs rs', and_assoc]

theorem Method.sameAll_iff : ∀ as bs : List Method, Method.sameAll as bs = true ↔ as = bs
  | [], bs => by cases bs <;> simp [Method.sameAll]
  | a :: as, [] => by simp [Method.sameAll]
  | ⟨_, a⟩ :: as, ⟨_, b⟩ :: bs => by
    simp [Method.sameAll, FuncSig.same_iff a b, Method.sameAll_iff as bs]

end

instance : DecidableEq GoType := fun a b => decidable_of_iff _ (GoType.same_iff a b)

end ConvSweep
