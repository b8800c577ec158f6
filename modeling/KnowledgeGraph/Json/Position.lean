import KnowledgeGraph.Word64

/-!
# Positions in messages

A reader says where a fault lies by an ending of its message: a line and a column. A message that has
such an ending of its own is taken for one that says where; line zero stands for nowhere and leaves no
ending.
-/

namespace KnowledgeGraph.Json

/-- A place in a text. -/
structure Position where
  /-- The line, counted from one; zero when the place is not known. -/
  line : Nat
  /-- The column. -/
  column : Nat
  deriving DecidableEq

namespace Position

/-- What stands before the line. -/
def lineMark : String := " at line "

/-- What stands between the line and the column. -/
def columnMark : String := " column "

/-- The position as an ending of a message. -/
def text (position : Position) : String :=
  if position.line = 0 then ""
  else lineMark ++ toString position.line ++ columnMark ++ toString position.column

/-- The digits at the end of a reversed text, in order, and what is before them behind a mark. -/
def splitNumber? (mark : String) (reversed : List Char) : Option (Nat × List Char) :=
  let (digits, rest) := reversed.span Char.isDigit
  let mark := mark.toList.reverse
  match Word64.parse (String.ofList digits.reverse) with
  | .ok count => if mark.isPrefixOf rest then some (count, rest.drop mark.length) else none
  | .error _ => none

/-- A message without the position at its end, and the position. -/
def split? (message : String) : Option (String × Position) := do
  let (column, rest) ← splitNumber? columnMark message.toList.reverse
  let (line, rest) ← splitNumber? lineMark rest
  some (String.ofList rest.reverse, { line, column })

/-- A message as it is told by a reader: a position at its end is written anew. -/
def settle (message : String) : String :=
  match split? message with
  | some (front, position) => front ++ position.text
  | none => message

end Position

end KnowledgeGraph.Json
