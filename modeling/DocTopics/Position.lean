/-!
# Positions in the input

A `Position` names a line of a unit for the reader of a message. A `Place` ranks a block among
all blocks of the input: by the ordinal of its unit, then by line.
-/

namespace DocTopics

/-- A source unit: an identifier and the full text. -/
structure SourceUnit where
  id : String
  text : String

/-- A unit and a line in it, counted from one. -/
structure Position where
  unit : String
  line : Nat
deriving DecidableEq

/-- The position as messages show it. -/
def Position.render (p : Position) : String :=
  p.unit ++ ":" ++ toString p.line

/-- The place of a block in the whole input: the ordinal of its unit, then its first line. -/
structure Place where
  unit : Nat := 0
  line : Nat := 0
deriving DecidableEq

/-- The strict order of places. -/
def Place.before (a b : Place) : Bool :=
  a.unit < b.unit || (a.unit == b.unit && a.line < b.line)

end DocTopics
