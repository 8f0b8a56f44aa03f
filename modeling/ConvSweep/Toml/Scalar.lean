import ConvSweep.Text.Digits
import ConvSweep.Toml.Quotes
import ConvSweep.Toml.Value

/-!
# TOML numbers, dates and words

A scalar without quotes is a run of characters. It is a word, a number, or a date or time.
-/

namespace ConvSweep.Toml.Scalar

/-- The signs, blanks and ends of lines that divide a document. -/
def dividers : List Char :=
  ['=', ',', '[', ']', '\x7b', '\x7d', ' ', '\t', '#', '\r', '\n']

/-- The characters of a scalar without quotes. -/
def isScalarChar (c : Char) : Bool := !dividers.contains c

/-! ## Numbers -/

/-- The pieces of a text between its underscores. -/
def pieces : List Char → List (List Char)
  | [] => [[]]
  | c :: cs =>
    if c = '_' then [] :: pieces cs
    else
      match pieces cs with
      | piece :: rest => (c :: piece) :: rest
      | [] => [[c]]

/-- Whether every underscore has digits on both sides. -/
def wellSpaced (isDigit : Char → Bool) (cs : List Char) : Bool :=
  let ps := pieces cs
  ps.tail.all (fun p => p.head?.any isDigit) && ps.dropLast.all fun p => p.getLast?.any isDigit

def withoutUnderscores (cs : List Char) : List Char := cs.filter (· ≠ '_')

/-- The sign of a number, which may be missing, and what follows it. -/
def sign : List Char → Option Bool × List Char
  | '-' :: cs => (some true, cs)
  | '+' :: cs => (some false, cs)
  | cs => (none, cs)

/-- An integer in a base other than ten, after what tells the base. Its digits may be missing. -/
def radixInteger? (base : Nat) (cs : List Char) : Option Value :=
  let digits := withoutUnderscores cs
  let isDigit (c : Char) := (digitValue? base c).isSome
  if wellSpaced isDigit cs && digits.all isDigit then
    some (.integer ((numeral? base digits).map Int.ofNat))
  else none

/-- A decimal integer with its sign. What follows an underscore is looked at only as far as it has
to look like a digit of any base; whether all of it is a number shows later. -/
def decimalInteger? (cs : List Char) : Option Value :=
  if wellSpaced (fun c => (digitValue? 16 c).isSome) cs then
    let (negative, digits) := sign (withoutUnderscores cs)
    let n := (numeral? 10 digits).map Int.ofNat
    some (.integer (if negative = some true then n.map Neg.neg else n))
  else none

/-- The first number that rounds to none of the doubles: half a step above the largest of them. -/
def doubleLimit : Nat := Nat.pow 2 1024 - Nat.pow 2 970

/-- Whether a decimal fraction times a power of ten is too large for a double. -/
def overflows (whole fraction : List Nat) (exponent : Int) : Bool :=
  let digits := (whole ++ fraction).dropWhile (· = 0)
  let power := exponent - fraction.length
  -- The number is below ten to the power of `size`, and not below a tenth of that.
  let size := digits.length + power
  if digits.isEmpty || size ≤ 308 then false
  else if 309 < size then true
  else
    match power with
    | .ofNat n => doubleLimit ≤ ofDigits 10 digits * Nat.pow 10 n
    | .negSucc n => doubleLimit * Nat.pow 10 (n + 1) ≤ ofDigits 10 digits

/-- The digits at the start of a text, and the rest. -/
def takeDigits (cs : List Char) : List Nat × List Char :=
  ((cs.takeWhile Char.isDigit).map fun c => c.toNat - 48, cs.dropWhile Char.isDigit)

/-- A floating-point number without its sign: whether it is too large for a double. Before the
point, there is no zero in front of other digits. -/
def float? (cs : List Char) : Option Bool := do
  let (whole, rest) := takeDigits (withoutUnderscores cs)
  if whole.isEmpty || (cs.head? = some '0' && 1 < whole.length) then none
  let (fraction, rest) ←
    match rest with
    | '.' :: rest =>
      let (ds, rest) := takeDigits rest
      if ds.isEmpty then none else some (ds, rest)
    | rest => some ([], rest)
  match rest with
  | [] => return overflows whole fraction 0
  | c :: rest =>
    if c ≠ 'e' && c ≠ 'E' then none
    let (negative, rest) := sign rest
    let (ds, rest) := takeDigits rest
    if ds.isEmpty || !rest.isEmpty then none
    let size : Int := ofDigits 10 ds
    return overflows whole fraction (if negative = some true then -size else size)

/-- A number with its sign. -/
def number? (cs : List Char) : Option Value :=
  let (negative, value) := sign cs
  match value with
  | [] => none
  | ['0'] => some (.integer (some 0))
  | '0' :: 'x' :: ds => if negative.isNone then radixInteger? 16 ds else none
  | '0' :: 'o' :: ds => if negative.isNone then radixInteger? 8 ds else none
  | '0' :: 'b' :: ds => if negative.isNone then radixInteger? 2 ds else none
  | ['i', 'n', 'f'] | ['n', 'a', 'n'] => some (.float false)
  | value =>
    let rest := value.dropWhile Char.isDigit
    if rest.contains ' ' then none
    else if rest.any fun c => c = '.' || c = 'e' || c = 'E' then
      if wellSpaced Char.isDigit cs then (float? value).map .float else none
    else if value.head? = some '0' then none
    else if rest.isEmpty || rest.head? = some '_' then decimalInteger? cs
    else none

/-! ## Dates and times -/

/-- A number of exactly so many digits, and the rest. -/
def fixed (n : Nat) (cs : List Char) : Option (Nat × List Char) :=
  let ds := cs.take n
  if ds.length = n && ds.all Char.isDigit then
    some (ofDigits 10 (ds.map fun c => c.toNat - 48), cs.drop n)
  else none

def expect (c : Char) : List Char → Option (List Char)
  | d :: cs => if c = d then some cs else none
  | [] => none

def isLeapYear (year : Nat) : Bool := year % 4 = 0 && (year % 100 ≠ 0 || year % 400 = 0)

def daysIn (year month : Nat) : Nat :=
  if month = 2 then if isLeapYear year then 29 else 28
  else if month = 4 || month = 6 || month = 9 || month = 11 then 30
  else 31

/-- `YYYY-MM-DD`. -/
def date (cs : List Char) : Option (List Char) := do
  let (year, cs) ← fixed 4 cs
  let cs ← expect '-' cs
  let (month, cs) ← fixed 2 cs
  let cs ← expect '-' cs
  let (day, cs) ← fixed 2 cs
  if 1 ≤ month && month ≤ 12 && 1 ≤ day && day ≤ daysIn year month then some cs else none

/-- The fraction of a second. -/
def subsecond (cs : List Char) : Option (List Char) :=
  match cs with
  | '.' :: rest =>
    if (rest.takeWhile Char.isDigit).isEmpty then none else some (rest.dropWhile Char.isDigit)
  | cs => some cs

/-- `HH:MM`, `HH:MM:SS` or `HH:MM:SS.f`. -/
def time (cs : List Char) : Option (List Char) := do
  let (hour, cs) ← fixed 2 cs
  let cs ← expect ':' cs
  let (minute, cs) ← fixed 2 cs
  if 23 < hour || 59 < minute then none
  match cs with
  | ':' :: cs =>
    let (second, cs) ← fixed 2 cs
    if 60 < second then none
    subsecond cs
  | cs => some cs

/-- The offset from universal time. -/
def offset (cs : List Char) : Option (List Char) :=
  match cs with
  | 'Z' :: cs | 'z' :: cs => some cs
  | '+' :: cs | '-' :: cs => do
    let (hour, cs) ← fixed 2 cs
    let cs ← expect ':' cs
    let (minute, cs) ← fixed 2 cs
    if 23 < hour || 59 < minute then none else some cs
  | cs => some cs

/-- Whether a text is a date, a time, or both with or without an offset. -/
def isDatetime (cs : List Char) : Bool :=
  let dated : Option (List Char) := do
    match ← date cs with
    | [] => some []
    | c :: cs => if c = 'T' || c = 't' || c = ' ' then (time cs).bind offset else none
  dated = some [] || time cs = some []

/-- The value of a scalar without quotes. -/
def value? (cs : List Char) : Option Value :=
  if cs = ['t', 'r', 'u', 'e'] then some (.bool true)
  else if cs = ['f', 'a', 'l', 's', 'e'] then some (.bool false)
  else
    match number? cs with
    | some v => some v
    | none => if isDatetime cs then some .datetime else none

/-- The blanks after a scalar and the run of characters behind them, which belong to the scalar as
the time belongs to a date. Nothing belongs to it if a divider or a quote is next. -/
def continuation (cs : List Char) : List Char :=
  let blanks := cs.takeWhile Quotes.isSpace
  let run := (cs.dropWhile Quotes.isSpace).takeWhile isScalarChar
  match run with
  | [] | '"' :: _ | '\'' :: _ => []
  | run => blanks ++ run

/-- Takes a scalar off the text. -/
def take (cs : List Char) : Option (Value × List Char) := do
  let first := cs.takeWhile isScalarChar
  let more := continuation (cs.drop first.length)
  return (← value? (first ++ more), cs.drop (first.length + more.length))

end ConvSweep.Toml.Scalar
