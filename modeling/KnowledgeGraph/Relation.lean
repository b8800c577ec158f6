import KnowledgeGraph.Concept

/-!
# Relations

A relation is a typed arrow between two concepts. Unless it is named otherwise its id spells out its
triple, so that one arrow of a type leads from a concept to another.
-/

namespace KnowledgeGraph

/-- What a relation says: that `source` stands in a relation of a type to `target`. -/
structure Triple where
  /-- The id of the concept that the arrow leaves. -/
  source : String
  /-- The type of the relation. -/
  type : String
  /-- The id of the concept that the arrow enters. -/
  target : String
  deriving DecidableEq

namespace Triple

/-- The id of the relation that says just this. -/
def id (t : Triple) : String := t.source ++ "-" ++ t.type ++ "->" ++ t.target

/-- One concept put in the place of another at both ends. -/
def rename (t : Triple) (old new : String) : Triple :=
  { t with
    source := if t.source = old then new else t.source
    target := if t.target = old then new else t.target }

end Triple

/-- On which side of a concept relations are looked at. -/
inductive Direction where
  /-- Relations that leave the concept. -/
  | outgoing
  /-- Relations that enter the concept. -/
  | incoming
  /-- Relations on either side. -/
  | both
  deriving DecidableEq

/-- An arrow of a graph. -/
structure Relation where
  /-- The id, under which a graph keeps the relation. -/
  id : String
  /-- What the relation says. -/
  triple : Triple
  /-- Further attributes. -/
  metadata : Dict Json := .empty
  deriving DecidableEq

namespace Relation

/-- The relation that says a triple and has its id. -/
def ofTriple (triple : Triple) : Relation := { id := triple.id, triple }

/-- Whether the id is another than that of the triple. -/
def isNamed (relation : Relation) : Bool := decide (relation.id ≠ relation.triple.id)

/-- One concept put in the place of another at both ends. A relation with the id of its triple gets
the id of the new triple; a named one keeps its name. -/
def rewire (relation : Relation) (old new : String) : Relation :=
  let triple := relation.triple.rename old new
  { relation with
    triple
    id := if relation.isNamed then relation.id else triple.id }

/-- Whether the relation touches a concept on a side. -/
def touches (relation : Relation) (concept : String) : Direction → Bool
  | .outgoing => decide (relation.triple.source = concept)
  | .incoming => decide (relation.triple.target = concept)
  | .both => decide (relation.triple.source = concept) || decide (relation.triple.target = concept)

/-- The end across from a concept; of a loop it is the concept itself. -/
def otherEnd? (relation : Relation) (concept : String) : Option String :=
  if relation.triple.source = concept then some relation.triple.target
  else if relation.triple.target = concept then some relation.triple.source
  else none

/-- The relation with further metadata, which stays where both have some. -/
def annotate (relation : Relation) (metadata : Dict Json) : Relation :=
  { relation with metadata := relation.metadata.extend metadata }

/-- The relation with its metadata changed. -/
def mapMetadata (f : Json → Json) (relation : Relation) : Relation :=
  { relation with metadata := relation.metadata.map f }

/-- The record of a relation. -/
def toJson (relation : Relation) : Json :=
  .object <|
    [("id", .string relation.id), ("relation_type", .string relation.triple.type),
      ("source", .string relation.triple.source), ("target", .string relation.triple.target)] ++
    Concept.metadataMember relation.metadata

open Json in
/-- Reads a relation from its record, whose metadata has some depth left. -/
def ofSource? (depth : Nat) (source : Source) : Option Relation := do
  match ← source.fields? ["id", "relation_type", "source", "target", "metadata"] with
  | [some id, some type, some start, some target, metadata] => do
    let triple : Triple := ⟨← start.text?, ← type.text?, ← target.text?⟩
    let metadata ← Source.optional? (Source.dict? depth) .empty metadata
    some { id := ← id.text?, triple, metadata }
  | _ => none

end Relation

end KnowledgeGraph
