import KnowledgeGraph.Fault
import KnowledgeGraph.Relation

/-!
# Graphs of concepts and relations

A graph is a labelled directed multigraph. It keeps its concepts and its relations by id and lists
both in id order, and beside them an index of the named relations, whose ids are not those of their
triples. With the index a triple is found without a scan: it stands under its own id or under that of
a named relation. What every operation keeps up is stated by `Graph.WellFormed`.
-/

namespace KnowledgeGraph

/-- A labelled directed multigraph. -/
structure Graph where
  /-- The concepts by id. -/
  concepts : Dict Concept := .empty
  /-- The relations by id. -/
  relations : Dict Relation := .empty
  /-- The ids of the relations that are named. -/
  named : Dict Unit := .empty
  deriving DecidableEq, Inhabited

/-- What an operation leaves behind that may stop half-way: the graph as far as it came, and the
fault that stopped it. -/
structure Edited where
  /-- The graph with the changes made so far. -/
  graph : Graph
  /-- Why the operation stopped, if it did. -/
  fault : Option Fault

/-- The graph of an operation that came to its end. -/
def Edited.toExcept (edited : Edited) : Except Fault Graph :=
  match edited.fault with
  | none => .ok edited.graph
  | some fault => .error fault

namespace Graph

/-- The graph without concepts and relations. -/
def empty : Graph := {}

/-- Every concept and relation stands under its own id, relations lead between concepts of the
graph, and the index holds just the relations that are named. -/
structure WellFormed (g : Graph) : Prop where
  /-- A concept stands under its own id. -/
  concept_id : ∀ id concept, g.concepts.get? id = some concept → concept.id = id
  /-- A relation stands under its own id. -/
  relation_id : ∀ id relation, g.relations.get? id = some relation → relation.id = id
  /-- A relation leaves a concept of the graph. -/
  source_mem : ∀ id relation, g.relations.get? id = some relation →
    g.concepts.contains relation.triple.source = true
  /-- A relation enters a concept of the graph. -/
  target_mem : ∀ id relation, g.relations.get? id = some relation →
    g.concepts.contains relation.triple.target = true
  /-- The index holds the named relations and nothing else. -/
  named_iff : ∀ id, g.named.contains id = true ↔
    ∃ relation, g.relations.get? id = some relation ∧ relation.isNamed = true

/-- Whether the graph has neither concepts nor relations. -/
def isEmpty (g : Graph) : Bool := g.concepts.isEmpty && g.relations.isEmpty

/-- The concept with an id. -/
def concept? (g : Graph) (id : String) : Option Concept := g.concepts.get? id

/-- Whether a concept has an id. -/
def hasConcept (g : Graph) (id : String) : Bool := g.concepts.contains id

/-- The concept with an id, which must exist. -/
def requireConcept (g : Graph) (id : String) : Except Fault Concept :=
  match g.concept? id with
  | some concept => .ok concept
  | none => .error (.missingConcept id)

/-- The concepts in id order. -/
def conceptList (g : Graph) : List Concept := g.concepts.values

/-- The ids of the known concepts, in order. -/
def knownIds (g : Graph) : List String :=
  (g.conceptList.filter fun concept => !concept.isUnknown).map (·.id)

/-- The ids of the unknown concepts, in order. -/
def unknownIds (g : Graph) : List String :=
  (g.conceptList.filter (·.isUnknown)).map (·.id)

/-- The relation with an id. -/
def relation? (g : Graph) (id : String) : Option Relation := g.relations.get? id

/-- The relations in id order. -/
def relationList (g : Graph) : List Relation := g.relations.values

/-- The relations that touch a concept on a side, in id order. -/
def relationsAt (g : Graph) (concept : String) (direction : Direction) : List Relation :=
  g.relationList.filter (·.touches concept direction)

/-- The relations of a type, in id order. -/
def relationsOfType (g : Graph) (type : String) : List Relation :=
  g.relationList.filter fun relation => relation.triple.type = type

/-- Whether some relation says a triple, under the id of the triple or as a named one. -/
def hasTriple (g : Graph) (triple : Triple) : Bool :=
  let holds id := (g.relation? id).any fun relation => decide (relation.triple = triple)
  holds triple.id || g.named.keys.any holds

/-- Adds a concept; the attributes are laid over those of a concept with the same id. -/
def addConcept (g : Graph) (concept : Concept) : Graph :=
  let merged := match g.concept? concept.id with
    | some existing => existing.overlay concept
    | none => concept
  { g with concepts := g.concepts.insert concept.id merged }

/-- Adds a concept under an id, which it takes on, unless one has the id already. Says whether it
was added. -/
def addConceptIfAbsent (g : Graph) (id : String) (concept : Concept) : Bool × Graph :=
  if g.hasConcept id then (false, g)
  else (true, { g with concepts := g.concepts.insert id { concept with id } })

/-- Puts a relation under its id and enters it in the index if it is named. -/
def putRelation (g : Graph) (relation : Relation) : Graph :=
  { g with
    relations := g.relations.insert relation.id relation
    named := if relation.isNamed then g.named.insert relation.id () else g.named }

/-- Adds a relation between concepts of the graph. A relation with the same id must say the same,
and then its metadata is extended. -/
def addRelation (g : Graph) (relation : Relation) : Except Fault Graph := do
  discard <| g.requireConcept relation.triple.source
  discard <| g.requireConcept relation.triple.target
  match g.relation? relation.id with
  | none => .ok (g.putRelation relation)
  | some existing =>
    if existing.triple = relation.triple then
      let annotated := existing.annotate relation.metadata
      .ok { g with relations := g.relations.insert relation.id annotated }
    else .error (.duplicateRelation relation.id)

/-- Adds the relation of a triple between concepts of the graph, unless some relation says it. Says
whether one was added. -/
def addTripleIfAbsent (g : Graph) (triple : Triple) : Except Fault (Bool × Graph) := do
  discard <| g.requireConcept triple.source
  discard <| g.requireConcept triple.target
  if g.hasTriple triple then .ok (false, g)
  else .ok (true, ← g.addRelation (.ofTriple triple))

/-- Removes the relation with an id, which is returned. -/
def removeRelation (g : Graph) (id : String) : Option Relation × Graph :=
  (g.relation? id, { g with relations := g.relations.erase id, named := g.named.erase id })

/-- Removes a concept and every relation that touches it; the concept is returned. -/
def removeConcept (g : Graph) (id : String) : Except Fault (Concept × Graph) := do
  let concept ← g.requireConcept id
  let relations := g.relations.filter fun _ relation => !relation.touches id .both
  .ok (concept,
    { concepts := g.concepts.erase id
      relations
      named := g.named.filter fun name _ => relations.contains name })

/-- Adds concepts one after the other. -/
def addConcepts (g : Graph) (concepts : List Concept) : Graph := concepts.foldl addConcept g

/-- Adds relations one after the other, up to the first that is refused. -/
def addRelations (g : Graph) : List Relation → Edited
  | [] => ⟨g, none⟩
  | relation :: rest =>
    match g.addRelation relation with
    | .ok g => g.addRelations rest
    | .error fault => ⟨g, some fault⟩

/-- Adds the concepts and then the relations of another graph, in id order, up to the first relation
that is refused. -/
def merge (g other : Graph) : Edited :=
  (g.addConcepts other.conceptList).addRelations other.relationList

end Graph

end KnowledgeGraph
