import KnowledgeGraph.Matching.Search

/-!
# Graphs of matches

A binding cuts a graph out of the data: the concepts that the query concepts stand for, and every
relation that says what a query relation asks for. On demand the query is laid beside it, and each
query concept is linked to the data concept it stands for.
-/

namespace KnowledgeGraph.Matching

/-- The type of the relation from a query concept to the data concept it stands for. -/
def matchesType : String := "matches"

/-- What a search is to do. -/
structure Options where
  /-- Whether the query is laid beside each match. -/
  includeQuery : Bool := false
  /-- The limits of the search. -/
  limits : SearchLimits := {}

/-- Adds the data concepts that query concepts stand for. -/
def addResolved (data : Graph) (binding : Binding) :
    Graph → List Concept → Except Fault Graph
  | g, [] => .ok g
  | g, concept :: rest => do
    let resolved ← data.requireConcept (binding.resolve concept.id)
    addResolved data binding (g.addConcept resolved) rest

/-- The data relations that say what query relations ask for, one query relation after the other. -/
def resolvedRelations (query data : Graph) (binding : Binding) : List Relation :=
  query.relationList.flatMap fun relation =>
    let wanted := binding.resolveTriple relation.triple
    (data.relationsAt wanted.source .outgoing).filter fun found => found.triple = wanted

/-- Adds the relations of a query that the graph does not say yet. -/
def addMissing : Graph → List Relation → Except Fault Graph
  | g, [] => .ok g
  | g, relation :: rest =>
    if g.hasTriple relation.triple then addMissing g rest
    else do addMissing (← g.addRelation relation) rest

/-- Links query concepts to the data concepts they stand for. -/
def addLinks (binding : Binding) : Graph → List Concept → Except Fault Graph
  | g, [] => .ok g
  | g, concept :: rest => do
    let link : Triple := ⟨concept.id, matchesType, binding.resolve concept.id⟩
    let (_, g) ← g.addTripleIfAbsent link
    addLinks binding g rest

/-- Lays a query beside a match and links the two. -/
def addQuery (query : Graph) (binding : Binding) (g : Graph) : Except Fault Graph := do
  let g := query.conceptList.foldl
    (fun g concept => (g.addConceptIfAbsent concept.id concept).2) g
  let g ← addMissing g query.relationList
  addLinks binding g query.conceptList

/-- The graph that a binding cuts out of the data. -/
def materialize (includeQuery : Bool) (query data : Graph) (binding : Binding) :
    Except Fault Graph := do
  let g ← addResolved data binding .empty query.conceptList
  let g ← (g.addRelations (resolvedRelations query data binding)).toExcept
  if includeQuery then addQuery query binding g else .ok g

/-- One embedding of a query. -/
structure Match where
  /-- What the unknowns are bound to. -/
  binding : Binding
  /-- What the binding cuts out of the data. -/
  graph : Graph

/-- The embeddings of a query with their graphs, in the order of the bindings. -/
def findMatches (options : Options) (query data : Graph) : Except Fault (List Match) := do
  let bindings ← findBindings options.limits query data
  bindings.mapM fun binding => do
    let graph ← materialize options.includeQuery query data binding
    .ok { binding, graph }

/-- The graphs of the embeddings of a query. -/
def matchGraphs (options : Options) (query data : Graph) : Except Fault (List Graph) := do
  let found ← findMatches options query data
  .ok (found.map (·.graph))

end KnowledgeGraph.Matching
