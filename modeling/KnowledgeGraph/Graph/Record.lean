import KnowledgeGraph.Graph.Basic
import KnowledgeGraph.Json.Position

/-!
# Flat records of graphs

A record lists the concepts and the relations of a graph without its index. Reading adds them in
order, so that a repeated concept is laid over the earlier one and a relation that does not fit is
refused.
-/

namespace KnowledgeGraph

/-- The concepts and relations of a graph as two lists. -/
structure GraphRecord where
  /-- The concepts, in the order in which they are added. -/
  concepts : List Concept := []
  /-- The relations, in the order in which they are added. -/
  relations : List Relation := []
  deriving DecidableEq

namespace GraphRecord

/-- The graph of a record, if its relations lead between its concepts and no id stands for two
triples. -/
def toGraph (record : GraphRecord) : Except Fault Graph :=
  ((Graph.empty.addConcepts record.concepts).addRelations record.relations).toExcept

/-- The record of a graph, in id order. -/
def ofGraph (g : Graph) : GraphRecord := ⟨g.conceptList, g.relationList⟩

/-- The record as a JSON object. -/
def toJson (record : GraphRecord) : Json :=
  .object [("concepts", .array (record.concepts.map Concept.toJson)),
    ("relations", .array (record.relations.map Relation.toJson))]

/-- How deep the metadata of a record's concepts and relations may go: it stands inside the record,
the list and the concept or relation. -/
def metadataDepth : Nat := Json.Source.greatestDepth - 3

open Json in
/-- Reads a record from the form of a JSON text, where metadata has some depth left; a list left out is
empty. -/
def ofSource? (depth : Nat) (source : Source) : Option GraphRecord := do
  match ← source.fields? ["concepts", "relations"] with
  | [concepts, relations] => do
    let listed {α : Type} (read : Source → Option α) (list : Source) : Option (List α) := do
      (← list.items?).mapM read
    let concepts ← Source.optional? (listed (Concept.ofSource? depth)) [] concepts
    let relations ← Source.optional? (listed (Relation.ofSource? depth)) [] relations
    some { concepts, relations }
  | _ => none

end GraphRecord

namespace Graph

/-- The record of a graph as a JSON object. -/
def toJson (g : Graph) : Json := (GraphRecord.ofGraph g).toJson

/-- What is said of a fault of the graph that a record text holds. The reader of the text tells it. -/
def recordMessage (fault : Fault) : String := Json.Position.settle fault.message

/-- The graph that a record text holds. What the graph refuses is found before what follows the
record in the text. -/
def ofRecordText (text : String) : Except Fault Graph :=
  match Json.readFront text with
  | none => .error .unreadable
  | some (source, rest) =>
    match GraphRecord.ofSource? GraphRecord.metadataDepth source with
    | none => .error .unreadable
    | some record => do
      let g ← record.toGraph
      if (Json.skipBlanks rest).isEmpty then .ok g else .error .unreadable

end Graph

end KnowledgeGraph
