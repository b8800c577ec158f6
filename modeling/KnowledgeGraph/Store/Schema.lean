import KnowledgeGraph.Fault
import KnowledgeGraph.Files.Fault

/-!
# Schema versions

A store records the version of its layout and is brought forward one step at a time, recording the
version after each. A store of a later version than is asked for is refused.
-/

namespace KnowledgeGraph

/-- Why a store cannot be brought to a version. -/
inductive MigrationFault where
  /-- No step leads to the version. -/
  | noStep (version : Nat)
  /-- The store has a later version than the one asked for. -/
  | newer (stored supported : Nat)
  deriving DecidableEq

/-- The cause in words. -/
def MigrationFault.message : MigrationFault → String
  | .noStep version => s!"no migration to schema version {version}"
  | .newer stored supported =>
    s!"schema version {stored} is newer than supported version {supported}"

/-- Why an operation on a store is refused. -/
inductive StoreFault where
  /-- The graphs involved do not allow it. -/
  | graph (fault : Fault)
  /-- No concept names the rule. -/
  | ruleNotFound (name : String)
  /-- The store cannot be brought to a version. -/
  | migration (cause : MigrationFault)
  /-- The file of the store cannot be opened. -/
  | database (fault : FileFault)
  deriving DecidableEq

/-- The fault in words. -/
def StoreFault.message : StoreFault → String
  | .graph fault => fault.message
  | .ruleNotFound name => s!"Rule not found: {name}"
  | .migration cause => "Migration error: " ++ cause.message
  | .database fault => "Database error: I/O error: " ++ fault.message

namespace Schema

/-- The version of the layout that is in use. -/
def current : Nat := 2

/-- What each version brought, the oldest first. -/
def history : List (Nat × String) :=
  [(1, "concepts keyed by id, relations keyed by relation id, meta table"),
    (2, "index of relations stored under their own ids")]

/-- What a version brought. -/
def describe? (version : Nat) : Option String := history.lookup version

/-- How a kind of store keeps its version and takes the step to a version. -/
structure Migratable (σ : Type) where
  /-- The version recorded in a store, zero when there is none. -/
  version : σ → Nat
  /-- The store with a version recorded. -/
  record : Nat → σ → σ
  /-- What the step to a version leaves, and why it failed, if it did. -/
  step : Nat → σ → σ × Option StoreFault

namespace Migratable

variable {σ : Type}

/-- Takes so many steps from a version on, recording each, up to the first that fails. -/
def advance (kind : Migratable σ) : Nat → Nat → σ → σ × Option StoreFault
  | 0, _, store => (store, none)
  | steps + 1, version, store =>
    match kind.step (version + 1) store with
    | (store, none) => kind.advance steps (version + 1) (kind.record (version + 1) store)
    | (store, some fault) => (store, some fault)

/-- Brings a store to a version by every step after the recorded one. -/
def migrateTo (kind : Migratable σ) (target : Nat) (store : σ) : σ × Option StoreFault :=
  let stored := kind.version store
  if target < stored then (store, some (.migration (.newer stored target)))
  else kind.advance (target - stored) stored store

end Migratable

end Schema

end KnowledgeGraph
