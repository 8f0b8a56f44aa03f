import ConvSweep.Json.Value
import ConvSweep.Text.Digits

/-!
# The range of JSON numbers

Natural numbers below 2^64 are read exactly. Every other number only has to fit into a double.
-/

namespace ConvSweep.Json

/-- The nearest number with 53 binary digits, the even one of two that are equally near. -/
def roundToDouble (n : Nat) : Nat :=
  let unit := Nat.pow 2 (n.log2 - 52)
  let low := n % unit
  let high := n / unit
  let up := unit < 2 * low || (unit = 2 * low && high % 2 = 1)
  (if up then high + 1 else high) * unit

namespace Number

/-- The first number that has no place in 64 bits. -/
def limit : Nat := Nat.pow 2 64

/-- Digits read from the left, as many as fit below the limit, with the number of digits left. -/
def significand (acc : Nat) : List Nat → Nat × Nat
  | [] => (acc, 0)
  | d :: ds => if 10 * acc + d < limit then significand (10 * acc + d) ds else (acc, ds.length + 1)

/-- The number as a significand and a power of ten: digits that do not fit are dropped, and those
before the point count as a power of ten. -/
def parts (n : Number) : Nat × Int :=
  let (whole, dropped) := significand 0 n.whole
  let fraction := n.fraction.getD []
  let (digits, rest) := significand whole fraction
  let power : Int := dropped - (fraction.length - rest : Nat)
  match n.exponent with
  | none => (digits, power)
  | some (negative, ds) =>
    (digits, if negative then power - ofDigits 10 ds else power + ofDigits 10 ds)

/-- Whether the number is too large for a double. -/
def overflows (n : Number) : Bool :=
  let (digits, power) := n.parts
  match power with
  | .ofNat e =>
    if digits = 0 then false
    else if 308 < e then true
    else Nat.pow 2 1024 ≤ roundToDouble (roundToDouble digits * roundToDouble (Nat.pow 10 e))
  | .negSucc _ => false

/-- The natural number that is written, if it is written as one and has a place in 64 bits. -/
def toNat? (n : Number) : Option Nat :=
  if n.negative || n.fraction.isSome || n.exponent.isSome then none
  else
    let value := ofDigits 10 n.whole
    if value < limit then some value else none

end Number

end ConvSweep.Json
