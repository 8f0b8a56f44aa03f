import ConvSweep.Text.Unprintable

/-!
# Quoted text

A text in double quotes, for messages: quotes and backslashes are escaped, the usual controls have
short names, and what has no shape of its own is shown by its number.
-/

namespace ConvSweep

/-- The hexadecimal digits of a number, without leading zeros. -/
def hexDigits (n : Nat) : List Char := Nat.toDigits 16 n

namespace Quoted

/-- One character between the quotes. -/
def encodeChar (c : Char) : List Char :=
  if c = '\x00' then ['\\', '0']
  else if c = '\t' then ['\\', 't']
  else if c = '\r' then ['\\', 'r']
  else if c = '\n' then ['\\', 'n']
  else if c = '"' then ['\\', '"']
  else if c = '\\' then ['\\', '\\']
  else if isUnprintable c then ['\\', 'u', '\x7b'] ++ hexDigits c.toNat ++ ['\x7d']
  else [c]

end Quoted

/-- The text in quotes, with everything escaped that cannot stand between them as it is. -/
def quoted (s : String) : String :=
  String.ofList ('"' :: s.toList.flatMap Quoted.encodeChar ++ ['"'])

end ConvSweep
