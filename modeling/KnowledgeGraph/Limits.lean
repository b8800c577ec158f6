import KnowledgeGraph.Json.Record

/-!
# Limits

Bounds on the size of concept ids, on the work of one pattern search and on the rounds of forward
chaining, and what is said when an input exceeds one of them.
-/

namespace KnowledgeGraph

/-- A bound that an input exceeds. -/
inductive Violation where
  /-- A query has more unknowns than a search may bind. -/
  | tooManyUnknowns (count max : Nat)
  /-- A concept id has too many bytes. -/
  | conceptIdTooLong (length max : Nat)
  /-- A concept id is empty. -/
  | emptyConceptId
  /-- More rounds of chaining are asked for than are allowed. -/
  | tooManyRounds (rounds max : Nat)
  /-- A search may not return any result. -/
  | zeroResultLimit
  deriving DecidableEq

/-- The violation in words. -/
def Violation.message : Violation → String
  | .tooManyUnknowns count max =>
    s!"Too many unknown concepts in query: {count} (max {max})"
  | .conceptIdTooLong length max => s!"Concept id too long: {length} chars (max {max})"
  | .emptyConceptId => "Concept id cannot be empty"
  | .tooManyRounds rounds max => s!"Too many chaining rounds: {rounds} (max {max})"
  | .zeroResultLimit => "max_results must be at least 1"

namespace Limits

/-- The longest concept id, in bytes of UTF-8. -/
def conceptIdBytes : Nat := 256

/-- The most rounds of one run of forward chaining. -/
def rounds : Nat := 64

/-- A concept id has at least one byte and not too many. -/
def checkConceptId (id : String) : Except Violation Unit :=
  if id.isEmpty then .error .emptyConceptId
  else if conceptIdBytes < id.utf8ByteSize then
    .error (.conceptIdTooLong id.utf8ByteSize conceptIdBytes)
  else .ok ()

/-- The number of rounds asked for is allowed. -/
def checkRounds (count : Nat) : Except Violation Unit :=
  if rounds < count then .error (.tooManyRounds count rounds) else .ok ()

end Limits

/-- Bounds on the work of one pattern search. -/
structure SearchLimits where
  /-- The most unknowns a query may have. -/
  maxUnknowns : Nat := 16
  /-- The number of results after which the search stops. -/
  maxResults : Nat := 10000
  /-- The number of candidates that the search may try before it is given up. -/
  maxSteps : Nat := 1000000
  deriving DecidableEq

namespace SearchLimits

/-- At least one result must be wanted. -/
def check (limits : SearchLimits) : Except Violation Unit :=
  if limits.maxResults = 0 then .error .zeroResultLimit else .ok ()

/-- A query with this many unknowns may be searched for. -/
def checkUnknowns (limits : SearchLimits) (count : Nat) : Except Violation Unit :=
  if limits.maxUnknowns < count then .error (.tooManyUnknowns count limits.maxUnknowns) else .ok ()

/-- The limits as a JSON object. -/
def toJson (limits : SearchLimits) : Json :=
  .object [("max_unknowns", .nat limits.maxUnknowns), ("max_results", .nat limits.maxResults),
    ("max_steps", .nat limits.maxSteps)]

open Json in
/-- Reads limits from a record; a field left out has its usual value. -/
def ofSource? (source : Source) : Option SearchLimits := do
  let usual : SearchLimits := {}
  match ← source.fields? ["max_unknowns", "max_results", "max_steps"] with
  | [unknowns, results, steps] => do
    let maxUnknowns ← Source.optional? Source.count? usual.maxUnknowns unknowns
    let maxResults ← Source.optional? Source.count? usual.maxResults results
    let maxSteps ← Source.optional? Source.count? usual.maxSteps steps
    some { maxUnknowns, maxResults, maxSteps }
  | _ => none

end SearchLimits

end KnowledgeGraph
