import ConvSweep.Toml.Value

/-!
# Taking values out of TOML

Keys that nobody knows are passed over, but the numbers under them have to be in range.
-/

namespace ConvSweep.Toml

namespace Value

def toBool? : Value → Option Bool
  | bool b => some b
  | _ => none

def toText? : Value → Option String
  | string s => some s
  | _ => none

/-- The items of an array, each read by `f`. -/
def toList? {α : Type} (f : Value → Option α) : Value → Option (List α)
  | array items _ => items.mapM f
  | _ => none

mutual

/-- Whether every number inside is one and has a place: 128 bits for integers, a double for the
others. -/
def inRange : Value → Bool
  | integer none => false
  | integer (some n) => -(Nat.pow 2 127 : Int) ≤ n && n < (Nat.pow 2 128 : Int)
  | float overflows => !overflows
  | array items _ => allInRange items
  | table _ entries => entriesInRange entries
  | string _ | bool _ | datetime => true

def allInRange : List Value → Bool
  | [] => true
  | v :: vs => v.inRange && allInRange vs

def entriesInRange : List (String × Value) → Bool
  | [] => true
  | (_, v) :: es => v.inRange && entriesInRange es

end

end Value

namespace Entries

/-- The value that has to be under a key, read by `f`. -/
def required {α : Type} (es : Entries) (key : String) (f : Value → Option α) : Option α :=
  (get? es key).bind f

/-- The value that may be under a key, read by `f`. -/
def optional {α : Type} (es : Entries) (key : String) (f : Value → Option α) :
    Option (Option α) :=
  (get? es key).mapM f

/-- Whether everything but the known keys can be passed over. -/
def othersInRange (known : List String) (es : Entries) : Bool :=
  es.all fun (key, v) => known.contains key || v.inRange

end Entries

end ConvSweep.Toml
