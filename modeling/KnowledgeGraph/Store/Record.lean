import KnowledgeGraph.Graph.Record
import KnowledgeGraph.Json.Exact
import KnowledgeGraph.Store.Tables

/-!
# The record of a store

The tables of a store are kept in a file as one JSON record: the version, the rows of concepts and
relations as a flat record of a graph, and the index. Metadata is coded, so that the rows come back as
they were.
-/

namespace KnowledgeGraph.Tables

/-- The record of tables. -/
def toJson (tables : Tables) : Json :=
  .object [("version", .nat tables.version),
    ("rows", (GraphRecord.mk (tables.concepts.values.map (Concept.mapMetadata Json.code))
      (tables.relations.values.map (Relation.mapMetadata Json.code))).toJson),
    ("named", .object (tables.named.entries.map fun row => (row.1, .string row.2)))]

/-- The tables of rows. -/
def ofRows (version : Nat) (rows : GraphRecord) (named : List (String × String)) : Tables :=
  { concepts := .ofList (rows.concepts.map fun concept =>
      (concept.id, concept.mapMetadata Json.decode))
    relations := .ofList (rows.relations.map fun relation =>
      (relation.id, relation.mapMetadata Json.decode))
    named := .ofList named
    version }

open Json in
/-- Reads tables from their record, where metadata has some depth left. -/
def ofSource? (depth : Nat) (source : Source) : Option Tables := do
  match ← source.fields? ["version", "rows", "named"] with
  | [some version, some rows, some named] => do
    let named ← named.dict? 1
    let named ← named.entries.mapM fun row => row.2.asString?.map fun id => (row.1, id)
    some (ofRows (← version.count?) (← GraphRecord.ofSource? depth rows) named)
  | _ => none

/-- Reads tables from the text of their record. Nothing goes deeper than the text is long, so that no row
goes too deep for it. -/
def ofText? (text : String) : Option Tables := Json.readSource text >>= ofSource? text.length

end KnowledgeGraph.Tables
