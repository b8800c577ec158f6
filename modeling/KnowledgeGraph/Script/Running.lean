import KnowledgeGraph.Failure
import KnowledgeGraph.Outline.Reading
import KnowledgeGraph.Script.Basic
import KnowledgeGraph.Store.Basic

/-!
# Running scripts

The operations of a script are performed on a store one after the other, up to the first that fails.
Each says what came out of it. A failing operation leaves the store as the operations before it did,
apart from what a store in memory keeps of a refused `save`.
-/

namespace KnowledgeGraph

/-- What came out of an operation. -/
inductive Outcome where
  /-- A graph of this many concepts and relations was added. -/
  | merged (concepts relations : Nat)
  /-- A graph was found or followed. -/
  | answer (graph : Graph)
  /-- Nothing was found or followed. -/
  | noAnswer
  /-- Rules were chained. -/
  | chained (report : Chaining.Report)
  /-- The store was emptied. -/
  | cleared
  deriving DecidableEq

namespace Outcome

/-- An outcome as a value. -/
def toJson : Outcome → Json
  | merged concepts relations =>
    .object [("outcome", .string "merged"), ("concepts", .nat concepts),
      ("relations", .nat relations)]
  | answer graph => .object [("outcome", .string "answer"), ("graph", graph.toJson)]
  | noAnswer => .object [("outcome", .string "no_answer")]
  | chained report => .object [("outcome", .string "chained"), ("report", report.toJson)]
  | cleared => .object [("outcome", .string "cleared")]

/-- A graph as the outcome of a search. -/
def ofGraph (g : Graph) : Outcome := if g.isEmpty then noAnswer else answer g

end Outcome

/-- The graph of an outline file. -/
def FileTree.readGraph (files : FileTree) (path : String) : Except Failure Graph := do
  let text ← (files.read path).mapError fun fault => (Failure.ofFileFault fault).within (.read path)
  (Graph.ofText text).mapError fun fault => (Failure.ofFault fault).within (.outline path)

namespace Store

/-- Adds a graph to the stored one, or fails. -/
def saveOrFail (store : Store) (g : Graph) : Except Failure Unit × Store :=
  match store.save g with
  | (store, none) => (.ok (), store)
  | (store, some fault) => (.error (.ofFault fault), store)

/-- What follows from the first match of a stored rule in the stored graph. -/
def conclude (store : Store) (limits : SearchLimits) (name : String) : Except Failure Graph := do
  let ruleGraph ← (store.rule name).mapError Failure.ofStoreFault
  let memory ← store.load.mapError Failure.ofFault
  (Rule.ofGraph ruleGraph >>= fun rule => rule.applyFirst limits memory).mapError Failure.ofFault

/-- The stored rules with the given names, and the stored graph. -/
def rulesAndGraph (store : Store) (names : List String) : Except Failure (List Graph × Graph) := do
  let rules ← (names.mapM store.rule).mapError Failure.ofStoreFault
  let memory ← store.load.mapError Failure.ofFault
  .ok (rules, memory)

end Store

namespace Script

/-- Adds a graph to the store and counts it. -/
def mergeInto (store : Store) (found : Except Failure Graph) : Except Failure Outcome × Store :=
  match found with
  | .error failure => (.error failure, store)
  | .ok g =>
    match store.saveOrFail g with
    | (.ok (), store) => (.ok (.merged g.concepts.size g.relations.size), store)
    | (.error failure, store) => (.error failure, store)

/-- Performs one operation on a store. -/
def perform (script : Script) (files : FileTree) (limits : SearchLimits) (operation : Operation)
    (store : Store) : Except Failure Outcome × Store :=
  match operation with
  | .load file => mergeInto store (files.readGraph (Path.join script.directory file))
  | .assert outline => mergeInto store ((Graph.ofText outline).mapError Failure.ofFault)
  | .applyRule rule commit =>
    match store.conclude limits rule with
    | .error failure => (.error failure, store)
    | .ok g =>
      if commit && !g.isEmpty then
        match store.saveOrFail g with
        | (.ok (), store) => (.ok (.answer g), store)
        | (.error failure, store) => (.error failure, store)
      else (.ok (.ofGraph g), store)
  | .query outline =>
    let found := (Graph.ofText outline >>= store.query {}).mapError Failure.ofFault
    (found.map Outcome.ofGraph, store)
  | .chain names maxRounds =>
    match store.rulesAndGraph names with
    | .error failure => (.error failure, store)
    | .ok (rules, memory) =>
      match Chaining.run limits rules memory (maxRounds.getD script.maxRounds) with
      | (.error fault, _) => (.error (.ofFault fault), store)
      | (.ok report, memory) =>
        match store.saveOrFail memory with
        | (.ok (), store) => (.ok (.chained report), store)
        | (.error failure, store) => (.error failure, store)
  | .clear => (.ok .cleared, store.clear)

/-- Performs operations from a number on, up to the first that fails. -/
def performAll (script : Script) (files : FileTree) (limits : SearchLimits) :
    Nat → List Operation → Store → Except Failure (List Outcome) × Store
  | _, [], store => (.ok [], store)
  | number, operation :: operations, store =>
    match script.perform files limits operation store with
    | (.error failure, store) => (.error (failure.within (.step number)), store)
    | (.ok outcome, store) =>
      match performAll script files limits (number + 1) operations store with
      | (.error failure, store) => (.error failure, store)
      | (.ok outcomes, store) => (.ok (outcome :: outcomes), store)

/-- Runs a script on a store. -/
def run (script : Script) (files : FileTree) (limits : SearchLimits) (store : Store) :
    Except Failure (List Outcome) × Store :=
  script.performAll files limits 1 script.operations store

/-- The script in a file. Its files are looked for in the directory of that file. -/
def read (files : FileTree) (path : String) : Except Failure Script := do
  let text ← (files.read path).mapError fun fault =>
    (Failure.ofFileFault fault).within (.readScript path)
  match ofToml? text with
  | some script => .ok { script with directory := Path.parent path }
  | none => .error { contexts := [.script path], cause := .unreadableToml }

end Script

end KnowledgeGraph
