import KnowledgeGraph.Graph.Record
import KnowledgeGraph.Json.Writer
import KnowledgeGraph.Outline.Basic

/-!
# The outline of a graph

Writing walks the graph along its relations. Each concept is written out once, with its relations
grouped by type, and is a bare reference wherever it is met again, so cycles come to an end. Without
a root the walk starts at the concepts that no relation enters and then at whatever is left over,
each in id order.
-/

namespace KnowledgeGraph.Outline

/-- The targets of a concept's relations by type, each once and in the order of the relation
ids. -/
def targetsByType (g : Graph) (id : String) : Dict (List String) :=
  (g.relationsAt id .outgoing).foldl
    (fun groups relation =>
      let targets := (groups.get? relation.triple.type).getD []
      let target := relation.triple.target
      groups.insert relation.triple.type
        (if targets.contains target then targets else targets ++ [target]))
    .empty

/-- How the concept with an id is referred to. -/
def referenceTo (g : Graph) (id : String) : String :=
  match g.concept? id with
  | some concept => concept.reference
  | none => id

/-- What stands under a relation key: the targets with what is written out below each of them. A
single target with nothing below it is a bare reference. -/
def termOf : List (String × Dict Term) → Term
  | [(reference, branches)] =>
    if branches.isEmpty then .reference reference else .nested [(reference, branches.entries)]
  | targets => .nested (Dict.ofList (targets.map fun target => (target.1, target.2.entries))).entries

/-- Writes out targets one after the other with a writer of one of them. The ids met so far are
handed on from each to the next. -/
def writeTargets (g : Graph) (write : List String → String → Dict Term × List String) :
    List String → List String → List (String × Dict Term) × List String
  | visited, [] => ([], visited)
  | visited, target :: rest =>
    let (branches, visited) :=
      if visited.contains target then (.empty, visited) else write visited target
    let (others, visited) := writeTargets g write visited rest
    ((referenceTo g target, branches) :: others, visited)

/-- Writes out the relations of a concept type by type. -/
def writeTypes (g : Graph) (markFanOut : Bool)
    (write : List String → String → Dict Term × List String) :
    List String → Dict Term → List (String × List String) → Dict Term × List String
  | visited, branches, [] => (branches, visited)
  | visited, branches, (type, targets) :: rest =>
    let toAll := markFanOut && decide (1 < targets.length)
    let key : RelationKey := { arrow := .forward, type, toAll }
    let (written, visited) := writeTargets g write visited targets
    writeTypes g markFanOut write visited (branches.insert key.text (termOf written)) rest

/-- Writes out a concept that has not been met before, and returns the ids met by then. Every level
meets a new concept, so as many levels as there are concepts are enough. -/
def writeConcept (g : Graph) (markFanOut : Bool) :
    Nat → List String → String → Dict Term × List String
  | 0, visited, id => (.empty, id :: visited)
  | levels + 1, visited, id =>
    writeTypes g markFanOut (writeConcept g markFanOut levels) (id :: visited) .empty
      (targetsByType g id).entries

/-- Writes out the concepts of a list that have not been met before. -/
def writeTops (g : Graph) (markFanOut : Bool) :
    List String → Dict Branches → List Concept → Dict Branches
  | _, outline, [] => outline
  | visited, outline, concept :: rest =>
    if visited.contains concept.id then writeTops g markFanOut visited outline rest
    else
      let (branches, visited) := writeConcept g markFanOut g.concepts.size visited concept.id
      writeTops g markFanOut visited (outline.insert concept.reference branches.entries) rest

/-- The concepts in the order in which they are considered for the top level: those that no relation
enters, then the others. -/
def topOrder (g : Graph) : List Concept :=
  let entered id := g.relationList.any fun relation => relation.triple.target = id
  g.conceptList.filter (fun concept => !entered concept.id) ++
    g.conceptList.filter (fun concept => entered concept.id)

/-- The outline of a graph. Relation keys of types that lead a concept to several others can be
marked. -/
def ofGraph (g : Graph) (markFanOut : Bool) : Outline :=
  (writeTops g markFanOut [] .empty (topOrder g)).entries

/-- The outline of what can be reached from a concept, which must exist. -/
def ofRoot (g : Graph) (root : String) (markFanOut : Bool) : Except Fault Outline := do
  let concept ← g.requireConcept root
  let (branches, _) := writeConcept g markFanOut g.concepts.size [] concept.id
  .ok [(concept.reference, branches.entries)]

end KnowledgeGraph.Outline

namespace KnowledgeGraph.Graph

/-- The text of a graph: its outline on indented lines. -/
def toText (g : Graph) : String := (Outline.toJson (Outline.ofGraph g false)).pretty

end KnowledgeGraph.Graph
