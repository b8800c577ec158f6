import KnowledgeGraph.Graph.Basic

/-!
# Agreement of graphs

Two graphs agree when they differ at most in the signs of zeros in their metadata: as numbers these
zeros are equal, though they are written with their signs. Graphs are compared as numbers are, so
agreement is what a comparison of graphs tells.
-/

namespace KnowledgeGraph

/-- The number without the sign of a zero. -/
def Number.unsignZero : Number → Number
  | .double value => .double (if value.mantissa = 0 then .zero else value)
  | number => number

/-- The leaf without the sign of a zero. -/
def Json.unsignLeaf : Json → Json
  | .number value => .number value.unsignZero
  | leaf => leaf

/-- The value without the signs of its zeros. -/
def Json.unsignZeros (value : Json) : Json := value.mapLeaves unsignLeaf

namespace Graph

/-- The graph without the signs of zeros in its metadata. -/
def unsignZeros (g : Graph) : Graph :=
  { g with
    concepts := g.concepts.map (Concept.mapMetadata Json.unsignZeros)
    relations := g.relations.map (Relation.mapMetadata Json.unsignZeros) }

/-- Two graphs differ at most in the signs of zeros. -/
def Agrees (g h : Graph) : Prop := g.unsignZeros = h.unsignZeros

instance (g h : Graph) : Decidable (g.Agrees h) := inferInstanceAs (Decidable (_ = _))

end Graph

end KnowledgeGraph
