/-!
# Keys of the settings

Each setting has a key under which it is stored, shown and changed.
-/

namespace KnowledgeGraph.Settings

/-- A setting. -/
inductive Key where
  /-- The directory of the durable store. -/
  | dataDir
  /-- The kind of store. -/
  | backend
  /-- The most results of a search. -/
  | maxResults
  /-- The most candidates of a search. -/
  | maxSteps
  /-- The most unknowns of a query. -/
  | maxUnknowns
  /-- The most rounds of chaining. -/
  | maxRounds
  deriving DecidableEq

namespace Key

/-- All settings in the order in which they are listed. -/
def all : List Key := [dataDir, backend, maxResults, maxSteps, maxUnknowns, maxRounds]

/-- The name of a setting. -/
def name : Key → String
  | dataDir => "data_dir"
  | backend => "backend"
  | maxResults => "max_results"
  | maxSteps => "max_steps"
  | maxUnknowns => "max_unknowns"
  | maxRounds => "max_rounds"

/-- The setting with a name. -/
def ofName? (name : String) : Option Key := all.find? fun key => key.name = name

end Key

end KnowledgeGraph.Settings
