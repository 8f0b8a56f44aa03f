/-!
# Blank characters

The characters with the property White_Space.
-/

namespace ConvSweep

def isBlank (c : Char) : Bool :=
  let n := c.toNat
  (0x9 ≤ n && n ≤ 0xd) || n == 0x20 || n == 0x85 || n == 0xa0 || n == 0x1680 ||
    (0x2000 ≤ n && n ≤ 0x200a) || n == 0x2028 || n == 0x2029 || n == 0x202f || n == 0x205f ||
    n == 0x3000

/-- Keeps the blanks of a text and puts a space for every other character. -/
def blankOut (s : String) : String :=
  String.ofList (s.toList.map fun c => if isBlank c then c else ' ')

/-- The words of a text, with the blanks between and around them left out. -/
def words (s : String) : List String :=
  go [] s.toList
where
  /-- `word` holds the characters of the word being read, the last first. -/
  go (word : List Char) : List Char → List String
    | [] => if word.isEmpty then [] else [String.ofList word.reverse]
    | c :: cs =>
      if isBlank c then
        if word.isEmpty then go [] cs else String.ofList word.reverse :: go [] cs
      else go (c :: word) cs

/-- A text without the blanks at its ends. -/
def trimBlanks (s : String) : String :=
  String.ofList ((s.toList.dropWhile isBlank).reverse.dropWhile isBlank).reverse

end ConvSweep
