import KnowledgeGraph.Json.Reader
import KnowledgeGraph.Json.Writer

/-!
# What text keeps of a value

A value that is written as text and read again comes back with the doubles that the reader makes of
their decimals. The decimals determine the double that was written, but the reader rounds its digits
before it scales them, so that it may arrive at a neighbour.
-/

namespace KnowledgeGraph

/-- The number that is read from the text of a number. -/
def Number.reread (number : Number) : Number :=
  match Json.scanNumber (Json.numberText number).toList with
  | some (numeral, _) => numeral.number?.getD number
  | none => number

namespace Json

/-- The leaf that is read from the text of a leaf. All but numbers stay what they are. -/
def rereadLeaf : Json → Json
  | .number value => .number value.reread
  | leaf => leaf

/-- The value that is read from the text of a value. -/
def reread (value : Json) : Json := value.mapLeaves rereadLeaf

end Json

end KnowledgeGraph
