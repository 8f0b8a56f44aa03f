import ConvSweep.Json.Value
import ConvSweep.Text.Bytes

/-!
# Reading JSON

The reader works on bytes, because a file need not be text. What it finds broken it puts into the
tree, so it always has an answer.
-/

namespace ConvSweep.Json

namespace Reader

def isBlankByte (b : UInt8) : Bool := b = 0x20 || b = 0x0a || b = 0x09 || b = 0x0d

def skipBlanks (bs : List UInt8) : List UInt8 := bs.dropWhile isBlankByte

/-- The fault of a text that goes on with `bs` where something else is due. -/
def faultAt (bs : List UInt8) : Fault := if bs.isEmpty then .endsEarly else .malformed

/-! ## Words -/

/-- Takes the bytes of a word off the text. -/
def word : List UInt8 → List UInt8 → Except Fault (List UInt8)
  | [], bs => .ok bs
  | w :: ws, b :: bs => if w = b then word ws bs else .error .malformed
  | _ :: _, [] => .error .endsEarly

/-! ## Numbers -/

def digit? (b : UInt8) : Option Nat :=
  if 0x30 ≤ b && b ≤ 0x39 then some (b.toNat - 0x30) else none

/-- Takes digits off the text. -/
def digits : List UInt8 → List Nat × List UInt8
  | [] => ([], [])
  | b :: bs =>
    match digit? b with
    | some d =>
      let (ds, rest) := digits bs
      (d :: ds, rest)
    | none => ([], b :: bs)

/-- The value of a number that fails at `bs`; what is skipped is never too short. -/
def brokenNumber (bs : List UInt8) : Value := .broken (faultAt bs) .malformed

/-- The exponent of a number, after its mark. -/
def exponent (bs : List UInt8) : Except Value ((Bool × List Nat) × List UInt8) :=
  let (negative, bs) :=
    match bs with
    | b :: rest =>
      if b = 0x2d then (true, rest) else if b = 0x2b then (false, rest) else (false, bs)
    | [] => (false, [])
  match digits bs with
  | ([], rest) => .error (brokenNumber rest)
  | (ds, rest) => .ok ((negative, ds), rest)

/-- The part of a number from its first digit on. -/
def number (negative : Bool) (bs : List UInt8) : Except Value (Number × List UInt8) := do
  let (whole, bs) ←
    match digits bs with
    | ([], rest) => .error (brokenNumber rest)
    | (0 :: _ :: _, _) => .error (.broken .malformed .malformed)
    | found => .ok found
  let (fraction, bs) ←
    match bs with
    | 0x2e :: rest =>
      match digits rest with
      | ([], rest) => .error (brokenNumber rest)
      | (ds, rest) => .ok (some ds, rest)
    | _ => .ok (none, bs)
  match bs with
  | b :: rest =>
    if b = 0x65 || b = 0x45 then
      let (e, rest) ← exponent rest
      return (⟨negative, whole, fraction, some e⟩, rest)
    else return (⟨negative, whole, fraction, none⟩, bs)
  | [] => return (⟨negative, whole, fraction, none⟩, [])

/-! ## Strings -/

def hexDigit? (b : UInt8) : Option Nat :=
  if 0x30 ≤ b && b ≤ 0x39 then some (b.toNat - 0x30)
  else if 0x61 ≤ b && b ≤ 0x66 then some (b.toNat - 0x57)
  else if 0x41 ≤ b && b ≤ 0x46 then some (b.toNat - 0x37)
  else none

/-- The number that four hexadecimal digits spell. -/
def hexUnit? (a b c d : UInt8) : Option Nat := do
  let a ← hexDigit? a
  let b ← hexDigit? b
  let c ← hexDigit? c
  let d ← hexDigit? d
  return ((a * 16 + b) * 16 + c) * 16 + d

/-- The byte that a short escape stands for. -/
def escape? (b : UInt8) : Option UInt8 :=
  if b = 0x22 || b = 0x5c || b = 0x2f then some b
  else if b = 0x62 then some 0x08
  else if b = 0x66 then some 0x0c
  else if b = 0x6e then some 0x0a
  else if b = 0x72 then some 0x0d
  else if b = 0x74 then some 0x09
  else none

/-- The first half of a character that is written as two numeric escapes. -/
def isLeading (unit : Nat) : Bool := 0xd800 ≤ unit && unit ≤ 0xdbff

/-- The second half. -/
def isTrailing (unit : Nat) : Bool := 0xdc00 ≤ unit && unit ≤ 0xdfff

/-- The escape that has to follow a first half. -/
def trailing (bs : List UInt8) : Except Fault Nat :=
  match bs with
  | [] => .error .endsEarly
  | 0x5c :: 0x75 :: a :: b :: c :: d :: _ =>
    match hexUnit? a b c d with
    | some unit => if isTrailing unit then .ok unit else .error .malformed
    | none => .error .malformed
  | [0x5c] => .error .endsEarly
  | 0x5c :: 0x75 :: _ => .error .endsEarly
  | _ => .error .malformed

/-- The bytes of a character. -/
def encode (codePoint : Nat) : List UInt8 :=
  Text.bytes (String.ofList [Char.ofNat codePoint])

/-- What is found of a string. -/
inductive StringScan
  | closed (content : Except Fault String) (rest : List UInt8)
  | cut (read skipped : Fault)

/-- The content of a string: its text, unless it failed before or is no text. -/
def content (failed : Option Fault) (reversed : List UInt8) : Except Fault String :=
  match failed with
  | some f => .error f
  | none =>
    match Text.ofBytes? reversed.reverse with
    | some s => .ok s
    | none => .error .malformed

/-- Reads a string after its opening quote. `reversed` holds the bytes of the text so far, the
last first. `failed` is the first fault of the text itself; it does not keep the reader from
finding the end of the string. `fuel` is at least the number of bytes. -/
def string (fuel : Nat) (failed : Option Fault) (reversed : List UInt8) (bs : List UInt8) :
    StringScan :=
  match fuel, bs with
  | 0, _ | _, [] => .cut (failed.getD .endsEarly) .endsEarly
  | fuel + 1, b :: bs =>
    if b = 0x22 then .closed (content failed reversed) bs
    else if b = 0x5c then
      match bs with
      | [] => .cut (failed.getD .endsEarly) .endsEarly
      | 0x75 :: h1 :: h2 :: h3 :: h4 :: rest =>
        match hexUnit? h1 h2 h3 h4 with
        | none => .cut (failed.getD .malformed) .malformed
        | some unit =>
          if isTrailing unit then string fuel (some (failed.getD .malformed)) reversed rest
          else if isLeading unit then
            match trailing rest with
            | .ok second =>
              let codePoint := 0x10000 + (unit - 0xd800) * 0x400 + (second - 0xdc00)
              string fuel failed ((encode codePoint).reverse ++ reversed) (rest.drop 6)
            | .error f => string fuel (some (failed.getD f)) reversed rest
          else string fuel failed ((encode unit).reverse ++ reversed) rest
      | 0x75 :: _ => .cut (failed.getD .endsEarly) .endsEarly
      | e :: rest =>
        match escape? e with
        | some c => string fuel failed (c :: reversed) rest
        | none => .cut (failed.getD .malformed) .malformed
    else if b < 0x20 then .cut (failed.getD .malformed) .malformed
    else string fuel failed (b :: reversed) bs

/-! ## Values -/

/-- A value and the rest of the text; there is no rest after a value that is cut off. -/
abbrev Read := Value × Option (List UInt8)

/-- A word that starts like `v`, after its first letter. -/
def named (ending : String) (v : Value) (bs : List UInt8) : Read :=
  match word (Text.bytes ending) bs with
  | .ok rest => (v, some rest)
  | .error f => (.broken f f, none)

def quotedString (bs : List UInt8) : Read :=
  match string bs.length none [] bs with
  | .closed content rest => (.string content, some rest)
  | .cut read skipped => (.broken read skipped, none)

def numeral (negative : Bool) (bs : List UInt8) : Read :=
  match number negative bs with
  | .ok (n, rest) => (.number n, some rest)
  | .error v => (v, none)

/-- The key of a member up to its colon, and the rest; or the member that ends the text. -/
def key (bs : List UInt8) :
    Except (Except Fault String × Value) (Except Fault String × List UInt8) :=
  match string bs.length none [] bs with
  | .cut read skipped => .error (.error read, .broken read skipped)
  | .closed name rest =>
    match skipBlanks rest with
    | 0x3a :: rest => .ok (name, rest)
    | rest => .error (name, .broken (faultAt rest) (faultAt rest))

mutual

/-- Reads a value. `fuel` is at least twice the number of bytes, and two more. -/
def value (fuel : Nat) (bs : List UInt8) : Read :=
  match fuel with
  | 0 => (.broken .endsEarly .endsEarly, none)
  | fuel + 1 =>
    match skipBlanks bs with
    | [] => (.broken .endsEarly .endsEarly, none)
    | b :: rest =>
      if b = 0x6e then named "ull" .null rest
      else if b = 0x74 then named "rue" (.bool true) rest
      else if b = 0x66 then named "alse" (.bool false) rest
      else if b = 0x22 then quotedString rest
      else if b = 0x2d then numeral true rest
      else if (digit? b).isSome then numeral false (b :: rest)
      else if b = 0x5b then
        match skipBlanks rest with
        | [] => (.array [] (.cut .endsEarly), none)
        | 0x5d :: rest => (.array [] .closed, some rest)
        | rest =>
          let (vs, ending, rest) := items fuel rest
          (.array vs ending, rest)
      else if b = 0x7b then
        match skipBlanks rest with
        | [] => (.object [] (.cut .endsEarly), none)
        | 0x7d :: rest => (.object [] .closed, some rest)
        | rest =>
          let (ms, ending, rest) := members fuel rest
          (.object ms ending, rest)
      else (.broken .malformed .malformed, none)

/-- An item of an array and those that follow it. -/
def items (fuel : Nat) (bs : List UInt8) : List Value × Ending × Option (List UInt8) :=
  match fuel with
  | 0 => ([], .cut .endsEarly, none)
  | fuel + 1 =>
    match value fuel bs with
    | (v, none) => ([v], .cut .malformed, none)
    | (v, some rest) =>
      match skipBlanks rest with
      | 0x5d :: rest => ([v], .closed, some rest)
      | 0x2c :: rest =>
        let (vs, ending, rest) := items fuel rest
        (v :: vs, ending, rest)
      | rest => ([v], .cut (faultAt rest), none)

/-- A member of an object and those that follow it. -/
def members (fuel : Nat) (bs : List UInt8) :
    List (Except Fault String × Value) × Ending × Option (List UInt8) :=
  match fuel with
  | 0 => ([], .cut .endsEarly, none)
  | fuel + 1 =>
    match skipBlanks bs with
    | 0x22 :: rest =>
      match key rest with
      | .error m => ([m], .cut .malformed, none)
      | .ok (name, rest) =>
        match value fuel rest with
        | (v, none) => ([(name, v)], .cut .malformed, none)
        | (v, some rest) =>
          match skipBlanks rest with
          | 0x7d :: rest => ([(name, v)], .closed, some rest)
          | 0x2c :: rest =>
            let (ms, ending, rest) := members fuel rest
            ((name, v) :: ms, ending, rest)
          | rest => ([(name, v)], .cut (faultAt rest), none)
    | rest => ([], .cut (faultAt rest), none)

end

end Reader

/-- Reads a document. -/
def Document.ofBytes (bs : List UInt8) : Document :=
  match Reader.value (2 * bs.length + 2) bs with
  | (root, none) => ⟨root, false⟩
  | (root, some rest) => ⟨root, !(Reader.skipBlanks rest).isEmpty⟩

end ConvSweep.Json
