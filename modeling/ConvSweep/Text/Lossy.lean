import ConvSweep.Text.Bytes

/-!
# Reading any bytes as text

Bytes that are not UTF-8 are read with a replacement character for every part that cannot be the
start of a character, or that is the start of one that is not finished.
-/

namespace ConvSweep.Text

/-- The continuation bytes of a character that starts with the given byte: their number, and the
range of the first of them. -/
def continuation? (b : UInt8) : Option (Nat × UInt8 × UInt8) :=
  if 0xc2 ≤ b && b ≤ 0xdf then some (1, 0x80, 0xbf)
  else if b = 0xe0 then some (2, 0xa0, 0xbf)
  else if b = 0xed then some (2, 0x80, 0x9f)
  else if 0xe1 ≤ b && b ≤ 0xef then some (2, 0x80, 0xbf)
  else if b = 0xf0 then some (3, 0x90, 0xbf)
  else if 0xf1 ≤ b && b ≤ 0xf3 then some (3, 0x80, 0xbf)
  else if b = 0xf4 then some (3, 0x80, 0x8f)
  else none

/-- Takes up to `n` continuation bytes, the first of them between `lo` and `hi`. -/
def takeContinuation : (n : Nat) → (lo hi : UInt8) → List UInt8 → List UInt8
  | 0, _, _, _ => []
  | _, _, _, [] => []
  | n + 1, lo, hi, b :: bs =>
    if lo ≤ b && b ≤ hi then b :: takeContinuation n 0x80 0xbf bs else []

/-- The first character, and the number of further bytes that it takes. -/
def lossyChar (b : UInt8) (bs : List UInt8) : Char × Nat :=
  if b < 0x80 then (Char.ofNat b.toNat, 0)
  else
    match continuation? b with
    | none => ('\ufffd', 0)
    | some (n, lo, hi) =>
      let taken := takeContinuation n lo hi bs
      match ofBytes? (b :: taken) with
      | some s => (s.toList.headD '\ufffd', taken.length)
      | none => ('\ufffd', taken.length)

def lossyChars (bs : List UInt8) : List Char :=
  match bs with
  | [] => []
  | b :: bs =>
    let (c, n) := lossyChar b bs
    c :: lossyChars (bs.drop n)
termination_by bs.length
decreasing_by
  rw [List.length_drop, List.length_cons]
  omega

/-- Reads any bytes as text. -/
def lossy (bs : List UInt8) : String := String.ofList (lossyChars bs)

end ConvSweep.Text
