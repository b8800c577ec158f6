import KnowledgeGraph.Graph.Basic

/-!
# Substitution of a concept

A concept takes the place of another one, its placeholder, at every relation that touches it. Before
anything is changed the rewired relations are checked against each other and against the relations
that stay: no id may come to stand for two triples.
-/

namespace KnowledgeGraph.Graph

/-- The first relation of a list whose id stands for another triple, either in an earlier relation
of the list or in the graph outside the ids that leave it. -/
def clash? (g : Graph) (leaving : List String) : List Relation → List Relation → Option Relation
  | _, [] => none
  | staged, relation :: rest =>
    let earlier := staged.find? fun other => other.id = relation.id
    let stays := (g.relation? relation.id).filter fun other => !leaving.contains other.id
    let taken := (earlier.or stays).any fun other => decide (other.triple ≠ relation.triple)
    if taken then some relation else clash? g leaving (relation :: staged) rest

/-- Removes the relations with the given ids. -/
def removeRelations (g : Graph) (ids : List String) : Graph :=
  ids.foldl (fun g id => (g.removeRelation id).2) g

/-- Puts a concept in the place of the one with the placeholder's id. The placeholder must exist. A
concept that has the placeholder's id is only laid over it. -/
def substitute (g : Graph) (placeholder : String) (replacement : Concept) : Edited :=
  if !g.hasConcept placeholder then ⟨g, some (.missingConcept placeholder)⟩
  else if placeholder = replacement.id then ⟨g.addConcept replacement, none⟩
  else
    let touching := g.relationsAt placeholder .both
    let leaving := touching.map (·.id)
    let rewired := touching.map (·.rewire placeholder replacement.id)
    match g.clash? leaving [] rewired with
    | some relation => ⟨g, some (.duplicateRelation relation.id)⟩
    | none =>
      let cleared := { g with concepts := g.concepts.erase placeholder }
      ((cleared.addConcept replacement).removeRelations leaving).addRelations rewired

end KnowledgeGraph.Graph
