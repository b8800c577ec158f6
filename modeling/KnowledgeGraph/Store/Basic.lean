import KnowledgeGraph.Graph.Part
import KnowledgeGraph.Matching.Result
import KnowledgeGraph.Rule.Basic
import KnowledgeGraph.Store.Tables

/-!
# Stores

A store keeps one graph, either as a value that lasts as long as the process or in tables. Both kinds
answer the same operations; they differ in what a refused `save` leaves behind, which is what was added
before the conflict in the one kind and what was there before in the other.
-/

namespace KnowledgeGraph

/-- A store of one graph. -/
inductive Store where
  /-- A graph in memory. -/
  | memory (graph : Graph)
  /-- A graph in tables. -/
  | durable (tables : Tables)

/-- The part of a graph that a rule with a name takes up: its root, which must exist, and the concepts
of its parts. -/
def ruleNamed (g : Graph) (name : String) : Except StoreFault Graph :=
  if !g.hasConcept name then .error (.ruleNotFound name)
  else .ok (g.part (name :: RulePart.all.flatMap fun part => g.targetsOf name part.type))

namespace Store

/-- Adds a known concept with an id unless there is one with it. Says whether it was added. -/
def createConcept (store : Store) (id : String) : Bool × Store :=
  match store with
  | .memory g =>
    let (created, g) := g.addConceptIfAbsent id (.known id)
    (created, .memory g)
  | .durable tables =>
    let (created, tables) := tables.createConcept id
    (created, .durable tables)

/-- The graph of the one concept with an id, or the empty graph. -/
def concept (store : Store) (id : String) : Except Fault Graph := do
  let found ← match store with
    | .memory g => .ok (g.concept? id)
    | .durable tables => tables.concept? id
  match found with
  | some concept => .ok (Graph.empty.addConcept concept)
  | none => .ok .empty

/-- Removes a concept, if it is there, and the relations that touch it. -/
def deleteConcept (store : Store) (id : String) : Except Fault Store :=
  match store with
  | .memory g =>
    match g.removeConcept id with
    | .ok (_, g) => .ok (.memory g)
    | .error _ => .ok (.memory g)
  | .durable tables => do .ok (.durable (← tables.deleteConcept id))

/-- Adds the relation of a triple between concepts of the store, unless some relation says it. Says
whether one was added. -/
def createRelation (store : Store) (triple : Triple) : Except Fault (Bool × Store) :=
  match store with
  | .memory g => do
    let (created, g) ← g.addTripleIfAbsent triple
    .ok (created, .memory g)
  | .durable tables => do
    let (created, tables) ← tables.createRelation triple
    .ok (created, .durable tables)

/-- The stored graph. -/
def load : Store → Except Fault Graph
  | .memory g => .ok g
  | .durable tables => tables.load

/-- Adds a graph to the stored one. -/
def save (store : Store) (g : Graph) : Store × Option Fault :=
  match store with
  | .memory stored =>
    let edited := stored.merge g
    (.memory edited.graph, edited.fault)
  | .durable tables =>
    match tables.save g with
    | .ok tables => (.durable tables, none)
    | .error fault => (.durable tables, some fault)

/-- Removes all concepts and relations. -/
def clear : Store → Store
  | .memory _ => .memory .empty
  | .durable tables => .durable tables.clear

/-- Adds graphs to one another, up to the first that does not fit. -/
def mergeFound : Graph → List Graph → Except Fault Graph
  | g, [] => .ok g
  | g, found :: rest => do mergeFound (← (g.merge found).toExcept) rest

/-- What the matches of a query in the stored graph cut out of it, together. -/
def query (store : Store) (options : Matching.Options) (pattern : Graph) : Except Fault Graph := do
  let data ← store.load
  let found ← Matching.matchGraphs options pattern data
  mergeFound .empty found

/-- The stored rule with a name. -/
def rule (store : Store) (name : String) : Except StoreFault Graph := do
  let data ← store.load.mapError .graph
  ruleNamed data name

end Store

end KnowledgeGraph
