import KnowledgeGraph.Graph.Basic
import KnowledgeGraph.Json.Reread
import KnowledgeGraph.Store.Schema

/-!
# A store of tables

The store keeps concepts and relations in one table each and the named relations in an index from id
to the id of their triple. A row is text: it holds what is read from the text of the record that was
saved last, which keeps all but the last binary digits of some doubles. Metadata is written however deep
it goes, but a row that goes too deep is not read any more. Every operation is a transaction: one that is
refused leaves all tables as they were.
-/

namespace KnowledgeGraph

/-- The tables of a store. -/
structure Tables where
  /-- The concepts by id. -/
  concepts : Dict Concept := .empty
  /-- The relations by id. -/
  relations : Dict Relation := .empty
  /-- The ids of the triples of named relations, by relation id. -/
  named : Dict String := .empty
  /-- The version of the layout, zero before the first one is recorded. -/
  version : Nat := 0
  deriving DecidableEq

namespace Tables

/-- How deep the metadata of a row may go: it stands inside the concept or relation. -/
def metadataDepth : Nat := Json.Source.greatestDepth - 1

/-- Metadata can be read from a row when it does not go too deep. -/
def Fits (metadata : Dict Json) : Prop := (Json.ofDict metadata).nesting ≤ metadataDepth

instance (metadata : Dict Json) : Decidable (Fits metadata) := inferInstanceAs (Decidable (_ ≤ _))

/-- What is read from a row with metadata. -/
def readRow {α : Type} (metadata : α → Dict Json) (row : α) : Except Fault α :=
  if Fits (metadata row) then .ok row else .error .unreadable

/-- The concept of a row. -/
def readConcept : Concept → Except Fault Concept := readRow Concept.metadata

/-- The relation of a row. -/
def readRelation : Relation → Except Fault Relation := readRow Relation.metadata

/-- What is read from the row under a key, if there is one. -/
def lookUp {α : Type} (read : α → Except Fault α) (table : Dict α) (key : String) :
    Except Fault (Option α) :=
  match table.get? key with
  | none => .ok none
  | some row => (read row).map some

/-- The concept with an id, if there is one. -/
def concept? (tables : Tables) (id : String) : Except Fault (Option Concept) :=
  lookUp readConcept tables.concepts id

/-- The relation with an id, if there is one. -/
def relation? (tables : Tables) (id : String) : Except Fault (Option Relation) :=
  lookUp readRelation tables.relations id

/-- The relations with their ids, in id order, up to a row that cannot be read. -/
def scanRelations (tables : Tables) : Except Fault (List (String × Relation)) :=
  tables.relations.entries.mapM fun row => do .ok (row.1, ← readRelation row.2)

/-- The step to a version. The first makes the tables, which are empty without it; the second enters
the named relations in the index. -/
def runStep (version : Nat) (tables : Tables) : Except StoreFault Tables :=
  match version with
  | 1 => .ok tables
  | 2 => do
    let rows ← tables.scanRelations.mapError .graph
    let named := rows.filter fun row => row.2.isNamed
    .ok { tables with named := tables.named.insertMany (named.map fun row =>
      (row.1, row.2.triple.id)) }
  | other => .error (.migration (.noStep other))

/-- The store with a version recorded. -/
def recordVersion (version : Nat) (tables : Tables) : Tables := { tables with version }

/-- How tables are migrated. A step is a transaction: one that fails changes nothing. -/
def migratable : Schema.Migratable Tables where
  version := Tables.version
  record := recordVersion
  step version tables :=
    match runStep version tables with
    | .ok tables => (tables, none)
    | .error fault => (tables, some fault)

/-- Brings the store to a version. -/
def migrateTo (target : Nat) (tables : Tables) : Tables × Option StoreFault :=
  migratable.migrateTo target tables

/-- The store when it is opened again, which brings it to the current version. -/
def reopen (tables : Tables) : Except StoreFault Tables :=
  match tables.migrateTo Schema.current with
  | (tables, none) => .ok tables
  | (_, some fault) => .error fault

/-- A store without concepts and relations, in the current version. -/
def new : Tables := { version := Schema.current }

/-- Adds a known concept with an id unless there is one with it. Says whether it was added. -/
def createConcept (tables : Tables) (id : String) : Bool × Tables :=
  if tables.concepts.contains id then (false, tables)
  else (true, { tables with concepts := tables.concepts.insert id (.known id) })

/-- Removes a concept, if it is there, with the relations that touch it and their index rows. All
relations are looked at for this. -/
def deleteConcept (tables : Tables) (id : String) : Except Fault Tables := do
  let rows ← tables.scanRelations
  let touching := (rows.filter fun row => row.2.touches id .both).map (·.1)
  .ok { tables with
    concepts := tables.concepts.erase id
    relations := touching.foldl Dict.erase tables.relations
    named := touching.foldl Dict.erase tables.named }

/-- The ends of a relation are concepts of the store. -/
def requireEnds (tables : Tables) (triple : Triple) : Except Fault Unit :=
  if !tables.concepts.contains triple.source then .error (.missingConcept triple.source)
  else if !tables.concepts.contains triple.target then .error (.missingConcept triple.target)
  else .ok ()

/-- Whether the row under a relation id says a triple. -/
def rowSays (tables : Tables) (triple : Triple) (id : String) : Except Fault Bool := do
  let found ← tables.relation? id
  .ok (found.any fun relation => decide (relation.triple = triple))

/-- Whether some row says a triple: that under the id of the triple, or one that the index gives for
that id. Rows are read up to the first that does. -/
def hasTriple (tables : Tables) (triple : Triple) : Except Fault Bool := do
  if ← tables.rowSays triple triple.id then .ok true
  else
    let indexed := tables.named.entries.filter fun row => row.2 = triple.id
    indexed.anyM fun row => tables.rowSays triple row.1

/-- Adds the relation of a triple between concepts of the store, unless some relation says it. Says
whether one was added. -/
def createRelation (tables : Tables) (triple : Triple) : Except Fault (Bool × Tables) := do
  tables.requireEnds triple
  if ← tables.hasTriple triple then .ok (false, tables)
  else if tables.relations.contains triple.id then .error (.duplicateRelation triple.id)
  else
    let relation := Relation.ofTriple triple
    .ok (true, { tables with relations := tables.relations.insert relation.id relation })

/-- The graph of all rows. -/
def load (tables : Tables) : Except Fault Graph := do
  let concepts ← tables.concepts.values.mapM readConcept
  tables.relations.values.foldlM (fun g row => do g.addRelation (← readRelation row))
    (Graph.empty.addConcepts concepts)

/-- The row of a concept once it is written. -/
def conceptRow (concept : Concept) : Concept := concept.mapMetadata Json.reread

/-- The row of a relation once it is written. -/
def relationRow (relation : Relation) : Relation := relation.mapMetadata Json.reread

/-- The row of a concept after another one is saved to it. -/
def saveConcept (tables : Tables) (concept : Concept) : Except Fault Tables := do
  let merged := match ← tables.concept? concept.id with
    | some existing => existing.overlay concept
    | none => concept
  .ok { tables with concepts := tables.concepts.insert concept.id (conceptRow merged) }

/-- The row of a relation after another one is saved to it, which must say the same. The index gets a
row for a named relation. -/
def saveRelation (tables : Tables) (relation : Relation) : Except Fault Tables := do
  let merged ← match ← tables.relation? relation.id with
    | none => .ok relation
    | some existing =>
      if existing.triple = relation.triple then .ok (existing.annotate relation.metadata)
      else .error (.duplicateRelation relation.id)
  let named :=
    if relation.isNamed then tables.named.insert relation.id relation.triple.id else tables.named
  .ok { tables with relations := tables.relations.insert relation.id (relationRow merged), named }

/-- Saves a graph: all of it, or nothing when a relation does not fit or a row is not read. -/
def save (tables : Tables) (g : Graph) : Except Fault Tables :=
  if g.isEmpty then .ok tables
  else g.conceptList.foldlM saveConcept tables >>= g.relationList.foldlM saveRelation

/-- Removes all rows; the version stays. -/
def clear (tables : Tables) : Tables := { version := tables.version }

end Tables

end KnowledgeGraph
