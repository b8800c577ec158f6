import KnowledgeGraph.Graph.Record
import KnowledgeGraph.Outline.Basic

/-!
# The graph of an outline

Reading an outline adds every concept it refers to, once, and every triple it states, once. A
relation key leads to the top concepts of what stands under it, and these are read before the triples
of the key are added.
-/

namespace KnowledgeGraph.Outline

/-- Adds the concept of a reference unless it is there, and returns its id. -/
def register (g : Graph) (reference : String) : Except Fault (String × Graph) := do
  let concept ← Concept.parseReference reference
  .ok (concept.id, (g.addConceptIfAbsent concept.id concept).2)

/-- Adds the triples that a key says of a concept and of each of a list of others. -/
def addBranch (key : RelationKey) (above : String) : Graph → List String → Except Fault Graph
  | g, [] => .ok g
  | g, below :: rest => do
    let (_, g) ← g.addTripleIfAbsent (key.triple above below)
    addBranch key above g rest

/-- The key that a text of an outline writes. -/
def parseKey (text : String) : Except Fault RelationKey :=
  match RelationKey.parse text with
  | .ok key => .ok key
  | .error cause => .error (.outline cause)

mutual

/-- Adds a term and returns the ids of its top concepts. -/
def addTerm (g : Graph) : Term → Except Fault (List String × Graph)
  | .reference text => do
    let (id, g) ← register g text
    .ok ([id], g)
  | .several terms => addTerms g terms
  | .nested concepts => addConcepts g concepts

/-- Adds terms and returns the ids of their top concepts together. -/
def addTerms (g : Graph) : List Term → Except Fault (List String × Graph)
  | [] => .ok ([], g)
  | term :: terms => do
    let (first, g) ← addTerm g term
    let (others, g) ← addTerms g terms
    .ok (first ++ others, g)

/-- Adds concepts with all that stands under them and returns their ids. -/
def addConcepts (g : Graph) : List (String × Branches) → Except Fault (List String × Graph)
  | [] => .ok ([], g)
  | (reference, branches) :: rest => do
    let (id, g) ← register g reference
    let g ← addBranches g id branches
    let (others, g) ← addConcepts g rest
    .ok (id :: others, g)

/-- Adds what stands under the relation keys of a concept. -/
def addBranches (g : Graph) (above : String) : Branches → Except Fault Graph
  | [] => .ok g
  | (text, term) :: rest => do
    let key ← parseKey text
    let (ids, g) ← addTerm g term
    let g ← addBranch key above g ids
    addBranches g above rest

end

/-- The graph of an outline. -/
def toGraph (outline : Outline) : Except Fault Graph := do
  let (_, g) ← addConcepts .empty outline
  .ok g

end KnowledgeGraph.Outline

namespace KnowledgeGraph.Graph

/-- The graph that an outline text holds. -/
def ofText (text : String) : Except Fault Graph := Outline.ofText text >>= Outline.toGraph

end KnowledgeGraph.Graph
