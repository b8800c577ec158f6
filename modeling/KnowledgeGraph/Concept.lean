import KnowledgeGraph.Json.Record

/-!
# Concepts

A concept is a node of a graph. Known concepts stand for things; unknown ones are variables of
patterns and rules, and the question mark in front of an id marks them in text.
-/

namespace KnowledgeGraph

/-- A node of a graph. -/
structure Concept where
  /-- The id, under which a graph keeps the concept. -/
  id : String
  /-- What the concept is called; its id unless said otherwise. -/
  description : String
  /-- Whether the concept is a variable. -/
  isUnknown : Bool := false
  /-- Further attributes. -/
  metadata : Dict Json := .empty
  deriving DecidableEq

namespace Concept

/-- A known concept described by its id. -/
def known (id : String) : Concept := { id, description := id }

/-- An unknown concept described by its id. -/
def unknown (id : String) : Concept := { id, description := id, isUnknown := true }

/-- Whether a text starts with the mark of unknowns. -/
def isMarked (reference : String) : Bool := reference.toList.head? = some '?'

/-- The concept with the id and attributes that a reference in text stands for. -/
def ofReference (reference : String) : Concept :=
  if isMarked reference then unknown reference else known reference

/-- The first concept with the second one's attributes laid over its own. -/
def overlay (concept other : Concept) : Concept :=
  { concept with
    description := other.description
    isUnknown := other.isUnknown
    metadata := concept.metadata.extend other.metadata }

/-- The concept with its metadata changed. -/
def mapMetadata (f : Json → Json) (concept : Concept) : Concept :=
  { concept with metadata := concept.metadata.map f }

/-- The reference to the concept in text: its id, marked if the concept is unknown. -/
def reference (concept : Concept) : String :=
  if concept.isUnknown && !isMarked concept.id then "?" ++ concept.id else concept.id

/-- The member for metadata in a record, left out when there is none. -/
def metadataMember (metadata : Dict Json) : List (String × Json) :=
  if metadata.isEmpty then [] else [("metadata", .ofDict metadata)]

/-- The record of a concept. -/
def toJson (concept : Concept) : Json :=
  .object <|
    [("id", .string concept.id), ("description", .string concept.description),
      ("is_unknown", .bool concept.isUnknown)] ++ metadataMember concept.metadata

open Json in
/-- Reads a concept from its record, whose metadata has some depth left. -/
def ofSource? (depth : Nat) (source : Source) : Option Concept := do
  match ← source.fields? ["id", "description", "is_unknown", "metadata"] with
  | [some id, some description, isUnknown, metadata] => do
    let id ← id.text?
    let description ← description.text?
    let isUnknown ← Source.optional? Source.flag? false isUnknown
    let metadata ← Source.optional? (Source.dict? depth) .empty metadata
    some { id, description, isUnknown, metadata }
  | _ => none

end Concept

end KnowledgeGraph
