import ConvSweep.Text.Quoted

/-!
# Writing JSON

Objects and arrays are written with one entry a line, indented by two spaces a level.
-/

namespace ConvSweep.Json.Writer

/-- A number below 256 as four hexadecimal digits. -/
def fourDigits (n : Nat) : List Char := ['0', '0', Nat.digitChar (n / 16), Nat.digitChar (n % 16)]

/-- One character of a string. -/
def encodeChar (c : Char) : List Char :=
  if c = '"' then ['\\', '"']
  else if c = '\\' then ['\\', '\\']
  else if c = '\x08' then ['\\', 'b']
  else if c = '\t' then ['\\', 't']
  else if c = '\n' then ['\\', 'n']
  else if c = '\x0c' then ['\\', 'f']
  else if c = '\r' then ['\\', 'r']
  else if c.toNat < 0x20 then '\\' :: 'u' :: fourDigits c.toNat
  else [c]

def string (s : String) : String :=
  String.ofList ('"' :: s.toList.flatMap encodeChar ++ ['"'])

def indent (depth : Nat) : String := String.ofList (List.replicate (2 * depth) ' ')

/-- Entries between brackets, one a line; nothing stands between the brackets of no entries. -/
def entries (left right : String) (depth : Nat) (es : List String) : String :=
  if es.isEmpty then left ++ right
  else
    left ++ "\n" ++ ",\n".intercalate (es.map (indent (depth + 1) ++ ·)) ++ "\n" ++ indent depth ++
      right

def array (depth : Nat) (items : List String) : String := entries "[" "]" depth items

/-- An object; every member is a key and its written value. -/
def object (depth : Nat) (members : List (String × String)) : String :=
  entries "\x7b" "\x7d" depth (members.map fun (k, v) => string k ++ ": " ++ v)

/-- An object on one line, without blanks. -/
def compactObject (members : List (String × String)) : String :=
  "\x7b" ++ ",".intercalate (members.map fun (k, v) => string k ++ ":" ++ v) ++ "\x7d"

end ConvSweep.Json.Writer
