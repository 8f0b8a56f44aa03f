import ConvSweep.Text.Bytes
import ConvSweep.Text.Digits
import ConvSweep.Tool.Basic

/-!
# Text filters

Small tools that work on bytes: copying, cutting off, and exchanging characters. Some of them also
read files.
-/

namespace ConvSweep.Tool

open Text (bytes)

/-- Takes no notice of anything. -/
def succeed : Tool := fun _ _ => .ok []

def failing : Tool := fun _ _ => .fail 1 []

/-! ## Copying -/

/-- What some files hold, one after the other, and what is to be said about those that cannot be
read. A `-` stands for what is left of the input. -/
def contents (tree : FileTree) (complaint : String → FileError → String) :
    (names : List String) → (input : List UInt8) → List UInt8 × List UInt8
  | [], _ => ([], [])
  | "-" :: names, input =>
    let (output, errors) := contents tree complaint names []
    (input ++ output, errors)
  | name :: names, input =>
    let (output, errors) := contents tree complaint names input
    match tree.read ⟨name⟩ with
    | .ok content => (content ++ output, errors)
    | .error e => (output, bytes (complaint name e) ++ errors)

/-- Copies the input, or the files that are named. -/
def cat (tree : FileTree) : Tool := fun names input =>
  let names := if names.isEmpty then ["-"] else names
  let complaint (name : String) (e : FileError) := s!"cat: {name}: {e.reason}\n"
  let (output, errors) := contents tree complaint names input
  { status := if errors.isEmpty then 0 else 1, output, errors }

/-! ## The head of a text -/

/-- The first `n` lines. -/
def takeLines : Nat → List UInt8 → List UInt8
  | 0, _ => []
  | _, [] => []
  | n + 1, b :: bs => if b = 10 then b :: takeLines n bs else b :: takeLines (n + 1) bs

/-- The number of lines, where the last one need not be ended. -/
def lineCount (bs : List UInt8) : Nat :=
  bs.count 10 + if bs.getLast?.all (· = 10) then 0 else 1

/-- How much of a text is its head. -/
structure Extent where
  /-- Whether bytes are counted, or else lines. -/
  inBytes : Bool
  /-- Whether the number is that of what is left out at the end. -/
  allBut : Bool
  number : Nat
  deriving DecidableEq, Repr

def Extent.take (e : Extent) (bs : List UInt8) : List UInt8 :=
  let size := if e.inBytes then bs.length else lineCount bs
  let n := if e.allBut then size - e.number else e.number
  if e.inBytes then bs.take n else takeLines n bs

/-- The extent that a number stands for. -/
def extent? (inBytes : Bool) (number : List Char) : Option Extent :=
  match number with
  | '-' :: digits => do return ⟨inBytes, true, ← numeral? 10 digits⟩
  | digits => do return ⟨inBytes, false, ← numeral? 10 digits⟩

/-- The extent and the files that the words ask for: `-c 3`, `-n 3` or `-3`, or ten lines. None if
the words are not understood. -/
def headWords (extent : Extent) : List String → Option (Extent × List String)
  | [] => some (extent, [])
  | "-" :: words => do
    let (extent, names) ← headWords extent words
    return (extent, "-" :: names)
  | "-c" :: number :: words => do headWords (← extent? true number.toList) words
  | "-n" :: number :: words => do headWords (← extent? false number.toList) words
  | word :: words =>
    match word.toList with
    | '-' :: 'c' :: number => do headWords (← extent? true number) words
    | '-' :: 'n' :: number => do headWords (← extent? false number) words
    | '-' :: digits => do headWords ⟨false, false, ← numeral? 10 digits⟩ words
    | _ => do
      let (extent, names) ← headWords extent words
      return (extent, word :: names)

/-- The first bytes or lines of the input, or of one file. -/
def head (tree : FileTree) : Tool := fun words input =>
  match headWords ⟨false, false, 10⟩ words with
  | none => .fail 1 (bytes "head: invalid option\n")
  | some (extent, names) =>
    let names := if names.isEmpty then ["-"] else names
    let complaint (name : String) (e : FileError) :=
      s!"head: cannot open '{name}' for reading: {e.reason}\n"
    let (output, errors) := contents tree complaint names input
    { status := if errors.isEmpty then 0 else 1, output := extent.take output, errors }

/-! ## Sets of characters -/

/-- The bytes from `a` to `b`. -/
def byteRange (a b : UInt8) : List UInt8 :=
  (List.range (b.toNat + 1 - a.toNat)).map fun i => UInt8.ofNat (a.toNat + i)

def allBytes : List UInt8 := byteRange 0 255

/-- The bytes of a class of characters. -/
def byteClass? (name : String) : Option (List UInt8) :=
  let lower := byteRange 97 122
  let upper := byteRange 65 90
  let digits := byteRange 48 57
  let graphic := byteRange 33 126
  let alnum := digits ++ upper ++ lower
  [("alnum", alnum), ("alpha", upper ++ lower), ("blank", [9, 32]),
   ("cntrl", byteRange 0 31 ++ [127]), ("digit", digits), ("graph", graphic), ("lower", lower),
   ("print", 32 :: graphic), ("punct", graphic.filter fun b => !alnum.contains b),
   ("space", byteRange 9 13 ++ [32]), ("upper", upper),
   ("xdigit", digits ++ byteRange 65 70 ++ byteRange 97 102)].lookup name

/-- The byte that a letter after a backslash stands for, if not itself. -/
def escapedByte (b : UInt8) : UInt8 :=
  ([(97, 7), (98, 8), (102, 12), (110, 10), (114, 13), (116, 9), (118, 11)].lookup b).getD b

def isOctal (b : UInt8) : Bool := 48 ≤ b && b ≤ 55

/-- One byte of the description of a set, which may be written as an escape, and what follows. -/
def setByte : List UInt8 → Option (UInt8 × List UInt8)
  | [] => none
  | [92] => some (92, [])
  | 92 :: b :: bs =>
    if isOctal b then
      let digits := ((b :: bs).take 3).takeWhile isOctal
      let value := digits.foldl (fun n d => 8 * n + (d.toNat - 48)) 0
      if value < 256 then some (UInt8.ofNat value, (b :: bs).drop digits.length)
      else some (UInt8.ofNat (value / 8), (b :: bs).drop 2)
    else some (escapedByte b, bs)
  | b :: bs => some (b, bs)

/-- The class at the start of the description of a set, between `[:` and `:]`, and what follows. -/
def setClass : List UInt8 → Option (List UInt8 × List UInt8)
  | 91 :: 58 :: bs => do
    let name := bs.takeWhile (· ≠ 58)
    match bs.dropWhile (· ≠ 58) with
    | 58 :: 93 :: rest => return (← byteClass? (← Text.ofBytes? name), rest)
    | _ => none
  | _ => none

/-- The bytes that the description of a set stands for: classes, ranges, and single ones. Fails
with a range that runs backwards. -/
def byteSet : (fuel : Nat) → List UInt8 → Except (UInt8 × UInt8) (List UInt8)
  | 0, _ => .ok []
  | fuel + 1, bs =>
    match setClass bs with
    | some (members, rest) => do return members ++ (← byteSet fuel rest)
    | none =>
      match setByte bs with
      | none => .ok []
      | some (first, 45 :: rest) =>
        match setByte rest with
        | none => .ok [first, 45]
        | some (last, rest) =>
          if last < first then .error (first, last)
          else do return byteRange first last ++ (← byteSet fuel rest)
      | some (b, rest) => do return b :: (← byteSet fuel rest)

/-! ## Exchanging characters -/

/-- What takes the place of a byte of the first set: its partner in the second, of which the last
byte serves for all that are left over. -/
def partner (source target : List UInt8) (b : UInt8) : UInt8 :=
  match ((source.zip (target ++ List.replicate source.length (target.getLastD 0))).reverse.lookup b)
  with
  | some c => c
  | none => b

/-- Leaves one of every run of the same byte, if it is in a set. -/
def squeeze (set : List UInt8) : List UInt8 → List UInt8
  | b :: c :: bs =>
    if b = c && set.contains b then squeeze set (c :: bs) else b :: squeeze set (c :: bs)
  | bs => bs

/-- What to do with the characters. -/
structure ExchangeFlags where
  /-- The first set is meant to be all other characters. -/
  complement : Bool
  delete : Bool
  squeeze : Bool
  deriving DecidableEq, Repr

/-- Takes the flags off the words. -/
def exchangeFlags (flags : ExchangeFlags) : List String → ExchangeFlags × List String
  | [] => (flags, [])
  | word :: words =>
    match word.toList with
    | '-' :: c :: cs =>
      if (c :: cs).all fun c => c = 'c' || c = 'C' || c = 'd' || c = 's' then
        let has (flag : Char) := (c :: cs).contains flag
        let flags : ExchangeFlags :=
          { complement := flags.complement || has 'c' || has 'C'
            delete := flags.delete || has 'd'
            squeeze := flags.squeeze || has 's' }
        exchangeFlags flags words
      else (flags, word :: words)
    | _ => (flags, word :: words)

/-- What becomes of a text, given one set or two. -/
def exchangeBytes (flags : ExchangeFlags) (first : List UInt8) (second : Option (List UInt8))
    (input : List UInt8) : List UInt8 :=
  let source := if flags.complement then allBytes.filter (!first.contains ·) else first
  let changed :=
    if flags.delete then input.filter (!source.contains ·)
    else
      match second with
      | some target => input.map (partner source target)
      | none => input
  if flags.squeeze then squeeze (second.getD source) changed else changed

/-- Why the words make no sense. -/
def exchangeFault? (flags : ExchangeFlags) : List String → Option String
  | [] => some "missing operand"
  | [set] =>
    if flags.delete = flags.squeeze then
      some (s!"missing operand after '{set}'\nTwo strings must be given when " ++
        if flags.delete then "both deleting and squeezing repeats." else "translating.")
    else none
  | [_, set] =>
    if flags.delete && !flags.squeeze then
      some (s!"extra operand '{set}'\n" ++
        "Only one string may be given when deleting without squeezing repeats.")
    else none
  | _ :: _ :: set :: _ => some s!"extra operand '{set}'"

/-- Puts the characters of the second set for those of the first, drops those of the first, or
leaves one of each run. -/
def exchange : Tool := fun words input =>
  let (flags, sets) := exchangeFlags ⟨false, false, false⟩ words
  match exchangeFault? flags sets with
  | some fault => .fail 1 (bytes s!"tr: {fault}\nTry 'tr --help' for more information.\n")
  | none =>
    match sets.mapM fun set => byteSet (bytes set).length (bytes set) with
    | .error (first, last) =>
      .fail 1 (bytes "tr: range-endpoints of '" ++ [first, 45, last] ++
        bytes "' are in reverse collating sequence order\n")
    | .ok [first] => .ok (exchangeBytes flags first none input)
    | .ok (first :: second :: _) =>
      if second.isEmpty && !flags.delete then
        .fail 1 (bytes "tr: when not truncating set1, string2 must be non-empty\n")
      else .ok (exchangeBytes flags first (some second) input)
    | .ok [] => .ok input

end ConvSweep.Tool
