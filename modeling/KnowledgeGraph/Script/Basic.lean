import KnowledgeGraph.Files.Path
import KnowledgeGraph.Rule.Chaining
import KnowledgeGraph.Toml.Reader
import KnowledgeGraph.Json.Record

/-!
# Scripts

A script is a list of operations on a store. It is written in TOML, one table an operation, or as the
same record in JSON.
-/

namespace KnowledgeGraph

/-- One operation of a script. -/
inductive Operation where
  /-- Adds the graph of an outline file to the store. -/
  | load (file : String)
  /-- Adds the graph of an outline to the store. -/
  | assert (outline : String)
  /-- Applies a stored rule to the stored graph and, if wanted, adds what follows. -/
  | applyRule (rule : String) (commit : Bool)
  /-- Looks for an outline in the stored graph. -/
  | query (outline : String)
  /-- Chains stored rules over the stored graph and adds what follows. -/
  | chain (rules : List String) (maxRounds : Option Nat)
  /-- Empties the store. -/
  | clear
  deriving DecidableEq

/-- Operations, and what holds for all of them. -/
structure Script where
  /-- The operations in order. -/
  operations : List Operation
  /-- The directory that files of the script are looked for in. -/
  directory : String := ""
  /-- The most rounds of a chaining that does not say how many. -/
  maxRounds : Nat := Limits.rounds
  deriving DecidableEq

/-- The files that the operations of a script name. -/
def Script.files (script : Script) : List String :=
  script.operations.filterMap fun
    | .load file => some (Path.join script.directory file)
    | _ => none

namespace Operation

open Json

/-- Reads a count that may be left out or null. -/
def roundsOf? : Option Source → Option (Option Nat)
  | none => some none
  | some .null => some none
  | some source => source.count?.map some

/-- The operation with a name, from the record of its other parts. -/
def ofParts? (name : String) (parts : Source) : Option Operation :=
  match name with
  | "load" => do
    match ← parts.fields? ["file"] with
    | [some file] => file.text?.map load
    | _ => none
  | "assert" => do
    match ← parts.fields? ["notation"] with
    | [some outline] => outline.text?.map assert
    | _ => none
  | "apply_rule" => do
    match ← parts.fields? ["rule", "commit"] with
    | [some rule, commit] => some (applyRule (← rule.text?) (← Source.optional? Source.flag? false commit))
    | _ => none
  | "query" => do
    match ← parts.fields? ["notation"] with
    | [some outline] => outline.text?.map query
    | _ => none
  | "chain" => do
    match ← parts.fields? ["rules", "max_rounds"] with
    | [some rules, maxRounds] =>
      some (chain (← (← rules.items?).mapM Source.text?) (← roundsOf? maxRounds))
    | _ => none
  | "clear" => (parts.fields? []).map fun _ => clear
  | _ => none

/-- Reads an operation from a record, of which one part, in a list the first, is its name. -/
def ofSource? : Source → Option Operation
  | .object members => do
    match ← Source.namedFields? ["op"] members with
    | [some name] => ofParts? (← name.text?) (.object members)
    | _ => none
  | .array (name :: parts) => do ofParts? (← name.text?) (.array parts)
  | _ => none

/-- The record of an operation. -/
def toJson : Operation → Json
  | load file => .object [("op", .string "load"), ("file", .string file)]
  | assert outline => .object [("op", .string "assert"), ("notation", .string outline)]
  | applyRule rule commit =>
    .object [("op", .string "apply_rule"), ("rule", .string rule), ("commit", .bool commit)]
  | query outline => .object [("op", .string "query"), ("notation", .string outline)]
  | chain rules maxRounds =>
    .object [("op", .string "chain"), ("rules", .strings rules),
      ("max_rounds", (maxRounds.map Json.nat).getD .null)]
  | clear => .object [("op", .string "clear")]

end Operation

namespace Script

open Json

/-- Reads a script from a record. Without operations it is empty. -/
def ofSource? (source : Source) : Option Script := do
  match ← source.fields? ["operation"] with
  | [none] => some { operations := [] }
  | [some operations] => do
    some { operations := ← (← operations.items?).mapM Operation.ofSource? }
  | _ => none

/-- Reads a script from TOML text. -/
def ofToml? (text : String) : Option Script := do ofSource? (← Toml.read? text).source

/-- The record of a script. -/
def toJson (script : Script) : Json :=
  .object [("operation", .array (script.operations.map Operation.toJson))]

end Script

end KnowledgeGraph
