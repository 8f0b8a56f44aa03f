/-!
# JSON documents, as far as they can be read

A document is read into a tree even if it is broken: the tree then ends where the text stops being
JSON, and the fault stands there. So whoever takes values out of the tree meets a value of the
wrong shape and a fault in the order of the text.
-/

namespace ConvSweep.Json

/-- How a text stops being JSON. -/
inductive Fault
  | malformed
  /-- The text ends where something more is needed. -/
  | endsEarly
  deriving DecidableEq, Repr

/-- A number, by the digits that are written. -/
structure Number where
  negative : Bool
  /-- The digits before the point. -/
  whole : List Nat
  /-- The digits after the point, if there is one. -/
  fraction : Option (List Nat)
  /-- The exponent: whether it is negative, and its digits. -/
  exponent : Option (Bool × List Nat)
  deriving DecidableEq, Repr

/-- How a list of items or members ends. -/
inductive Ending
  | closed
  /-- The text fails where a comma or the closing bracket is due. -/
  | cut (fault : Fault)
  deriving DecidableEq, Repr

inductive Value
  | null
  | bool (b : Bool)
  | number (n : Number)
  /-- A string. One whose end can be found may still hold no text. -/
  | string (content : Except Fault String)
  | array (items : List Value) (ending : Ending)
  | object (members : List (Except Fault String × Value)) (ending : Ending)
  /-- The text fails in this place. A value that is only skipped is looked at less closely than
  one that is read, so it may fail in another way. -/
  | broken (read skipped : Fault)

/-- What is read of a text: one value, and whether anything but blanks follows it. -/
structure Document where
  root : Value
  trailing : Bool

end ConvSweep.Json
