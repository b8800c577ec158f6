import KnowledgeGraph.Files.Tree
import KnowledgeGraph.Settings.Key
import KnowledgeGraph.Word64

/-!
# Failures of a run

A run of a script or a command fails for one cause. What was being done is said by contexts around it,
the widest first.
-/

namespace KnowledgeGraph

/-- Why a run fails. -/
inductive Cause where
  /-- The store or the graphs do not allow it. -/
  | store (fault : StoreFault)
  /-- A file cannot be read or written. -/
  | file (fault : FileFault)
  /-- A text is no count. -/
  | count (fault : Word64.Fault)
  /-- A setting exceeds a limit. -/
  | violation (cause : Violation)
  /-- A text is no TOML, or TOML of another shape. -/
  | unreadableToml
  /-- A count is too large to be written as TOML. -/
  | unwritableToml
  /-- No setting has the name. -/
  | unknownKey (name : String)
  /-- No kind of store has the name. -/
  | unknownBackend (name : String)
  /-- There is a settings file already. -/
  | settingsExist (path : String)
  deriving DecidableEq

/-- The cause in words. -/
def Cause.message : Cause → String
  | .store fault => fault.message
  | .file fault => fault.message
  | .count fault => fault.message
  | .violation cause => cause.message
  | .unreadableToml => "TOML parse error"
  | .unwritableToml => "out-of-range value for u64 type"
  | .unknownKey name =>
    let available := String.intercalate ", " (Settings.Key.all.map Settings.Key.name)
    s!"Unknown config key: {name} (available: {available})"
  | .unknownBackend name => s!"Invalid backend '{name}': invalid variant: {name}"
  | .settingsExist path => s!"Config file already exists at {path}. Use --force to overwrite."

/-- What was being done when a run failed. -/
inductive Context where
  /-- A script file was read. -/
  | readScript (path : String)
  /-- A script was taken from the text of a file. -/
  | script (path : String)
  /-- An operation of a script was performed, counted from one. -/
  | step (number : Nat)
  /-- A file was read. -/
  | read (path : String)
  /-- A file was written. -/
  | write (path : String)
  /-- A graph was taken from the outline in a file. -/
  | outline (path : String)
  /-- The settings were taken from the text of a file. -/
  | settings (path : String)
  /-- A setting was given a count. -/
  | count (key value : String)
  deriving DecidableEq

/-- The context in words. -/
def Context.message : Context → String
  | .readScript path => s!"Failed to read program {path}"
  | .script path => s!"Invalid program {path}"
  | .step number => s!"Step {number} failed"
  | .read path => s!"Failed to read {path}"
  | .write path => s!"Failed to write {path}"
  | .outline path => s!"Invalid notation in {path}"
  | .settings path => s!"Invalid config file {path}"
  | .count key value => s!"{key} expects a number, got '{value}'"

/-- A cause and what was being done, the widest context first. -/
structure Failure where
  /-- What was being done. -/
  contexts : List Context := []
  /-- The cause. -/
  cause : Cause
  deriving DecidableEq

namespace Failure

/-- The failure with a wider context. -/
def within (context : Context) (failure : Failure) : Failure :=
  { failure with contexts := context :: failure.contexts }

/-- The contexts and the cause in words. -/
def messages (failure : Failure) : List String :=
  failure.contexts.map Context.message ++ [failure.cause.message]

/-- The failure for a fault of graphs. -/
def ofFault (fault : Fault) : Failure := { cause := .store (.graph fault) }

/-- The failure for a fault of a store. -/
def ofStoreFault (fault : StoreFault) : Failure := { cause := .store fault }

/-- The failure for a fault of a file. -/
def ofFileFault (fault : FileFault) : Failure := { cause := .file fault }

end Failure

end KnowledgeGraph
