import KnowledgeGraph.Graph.Basic

/-!
# Fresh ids

A source of ids counts upwards behind a stem. Each id is handed out once, so ids drawn from one source
differ from each other, and one that a graph has already can be passed over.
-/

namespace KnowledgeGraph

/-- A counter behind a stem, as in `c1`, `c2` and so on. -/
structure IdSource where
  /-- What every id starts with. -/
  stem : String := "c"
  /-- The number of the next id. -/
  next : Nat := 1

namespace IdSource

/-- The next id, whether or not it is in use anywhere. -/
def draw (ids : IdSource) : String × IdSource :=
  (ids.stem ++ toString ids.next, { ids with next := ids.next + 1 })

/-- The first of the next ids that is not in use in a graph, passing over at most so many. -/
def drawFreeWithin : Nat → IdSource → Graph → String × IdSource
  | 0, ids, _ => ids.draw
  | tries + 1, ids, g =>
    let (id, ids) := ids.draw
    if g.hasConcept id then drawFreeWithin tries ids g else (id, ids)

/-- The next id that no concept of a graph has. Of one more ids than there are concepts, one is
free. -/
def drawFree (ids : IdSource) (g : Graph) : String × IdSource :=
  drawFreeWithin g.concepts.size ids g

end IdSource

/-- Adds a known concept with a description under a fresh id, which is returned. -/
def Graph.addFresh (g : Graph) (ids : IdSource) (description : String) :
    String × IdSource × Graph :=
  let (id, ids) := ids.drawFree g
  let concept := { Concept.known id with description }
  (id, ids, { g with concepts := g.concepts.insert id concept })

end KnowledgeGraph
