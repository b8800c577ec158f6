import KnowledgeGraph.Graph.Basic

/-!
# Parts of graphs

The part of a graph that a set of concepts spans has those concepts and every relation between them.
Relations of a type mark such sets: their targets span the definition that the type gives.
-/

namespace KnowledgeGraph.Graph

/-- The part spanned by the concepts with the given ids; ids of no concept are ignored. -/
def part (g : Graph) (ids : List String) : Graph :=
  let concepts := g.concepts.filter fun id _ => ids.contains id
  let inside := g.relationList.filter fun relation =>
    concepts.contains relation.triple.source && concepts.contains relation.triple.target
  inside.foldl putRelation { concepts }

/-- The part spanned by the targets of all relations of a type. -/
def definition (g : Graph) (type : String) : Graph :=
  g.part ((g.relationsOfType type).map (·.triple.target))

/-- The targets of the relations of a type that leave a concept. -/
def targetsOf (g : Graph) (root type : String) : List String :=
  ((g.relationsAt root .outgoing).filter fun relation => relation.triple.type = type).map
    (·.triple.target)

/-- The part spanned by the targets of the relations of a type that leave a concept. -/
def definitionOf (g : Graph) (root type : String) : Graph := g.part (g.targetsOf root type)

end KnowledgeGraph.Graph
