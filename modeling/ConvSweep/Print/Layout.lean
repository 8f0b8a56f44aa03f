import ConvSweep.Print.Printer
import ConvSweep.Tree.Table

/-!
# The layout of a file

The faithful style prints a file as it is written, with every parenthesis, and says where its
nodes are.
-/

namespace ConvSweep

/-- Prints every written parenthesis and replaces nothing. -/
def Style.faithful : Style where
  showsParens _ _ := true
  standIn _ := none

/-- Where the nodes of a file are in its text. -/
structure Positions where
  /-- The extents of expressions, statements, blocks and clauses. -/
  spans : Table Span
  /-- The parentheses of calls. -/
  parens : Table ParenPair

/-- A file as text, with the positions of its nodes. -/
structure Layout where
  text : String
  positions : Positions

/-- The faithful print of a file. -/
def Node.layoutDoc (file : File) : Doc := file.doc .faithful 0 .plain

def Node.layout (file : File) : Layout :=
  let doc := file.layoutDoc
  { text := doc.toString
    positions := { spans := .ofList (doc.spans 0), parens := .ofList (doc.parenPairs 0) } }

end ConvSweep
