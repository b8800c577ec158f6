import KnowledgeGraph.Failure
import KnowledgeGraph.Toml.Reader
import KnowledgeGraph.Toml.Writer

/-!
# Settings

What holds for all runs: where and how the graph is stored and how much work a search or a chaining may
take. Settings are kept in a file of the home directory; each one that is left out there has its usual
value.
-/

namespace KnowledgeGraph

/-- A kind of store. -/
inductive Backend where
  /-- In memory, gone after the run. -/
  | memory
  /-- In tables of a file. -/
  | durable
  deriving DecidableEq

namespace Backend

/-- The name of a kind of store. -/
def name : Backend → String
  | memory => "memory"
  | durable => "redb"

/-- The kind of store with a name. -/
def ofName? (name : String) : Option Backend := [memory, durable].find? fun kind => kind.name = name

end Backend

/-- The settings. -/
structure Settings where
  /-- The directory of the durable store. -/
  dataDir : String
  /-- The kind of store. -/
  backend : Backend
  /-- The most results of a search. -/
  maxResults : Nat
  /-- The most candidates of a search. -/
  maxSteps : Nat
  /-- The most unknowns of a query. -/
  maxUnknowns : Nat
  /-- The most rounds of chaining. -/
  maxRounds : Nat
  deriving DecidableEq

namespace Settings

/-- The directory of the settings and, usually, of the store. -/
def usualDir (home : String) : String := Path.join home ".semnet"

/-- The file of the settings. -/
def filePath (home : String) : String := Path.join (usualDir home) "config.toml"

/-- The usual settings. -/
def usual (home : String) : Settings :=
  let limits : SearchLimits := {}
  { dataDir := usualDir home
    backend := .durable
    maxResults := limits.maxResults
    maxSteps := limits.maxSteps
    maxUnknowns := limits.maxUnknowns
    maxRounds := Limits.rounds }

/-- Whether the settings are the usual ones, however the path of the directory is written. -/
def isUsual (home : String) (settings : Settings) : Bool :=
  decide (Path.Same settings.dataDir (usual home).dataDir) &&
    decide ({ settings with dataDir := (usual home).dataDir } = usual home)

/-- The bounds of a search. -/
def limits (settings : Settings) : SearchLimits :=
  { maxUnknowns := settings.maxUnknowns
    maxResults := settings.maxResults
    maxSteps := settings.maxSteps }

/-- The text of a setting. -/
def text (settings : Settings) : Key → String
  | .dataDir => settings.dataDir
  | .backend => settings.backend.name
  | .maxResults => toString settings.maxResults
  | .maxSteps => toString settings.maxSteps
  | .maxUnknowns => toString settings.maxUnknowns
  | .maxRounds => toString settings.maxRounds

/-- The texts of all settings in order. -/
def texts (settings : Settings) : List String := Key.all.map settings.text

/-- The count that a text gives a setting. -/
def countFor (key : Key) (value : String) : Except Failure Nat :=
  match Word64.parse value with
  | .ok count => .ok count
  | .error fault => .error { contexts := [.count key.name value], cause := .count fault }

/-- Changes a setting. The names of stores may be written in capitals here. -/
def change (settings : Settings) (key : Key) (value : String) : Except Failure Settings :=
  match key with
  | .dataDir => .ok { settings with dataDir := value }
  | .backend =>
    match Backend.ofName? (value.map Char.toLower) with
    | some backend => .ok { settings with backend }
    | none => .error { cause := .unknownBackend value }
  | .maxResults => do
    let changed := { settings with maxResults := ← countFor key value }
    match changed.limits.check with
    | .ok () => .ok changed
    | .error violation => .error { cause := .violation violation }
  | .maxSteps => do .ok { settings with maxSteps := ← countFor key value }
  | .maxUnknowns => do .ok { settings with maxUnknowns := ← countFor key value }
  | .maxRounds => do .ok { settings with maxRounds := ← countFor key value }

/-- The setting with a name, or a failure that lists the names there are. -/
def requireKey (name : String) : Except Failure Key :=
  match Key.ofName? name with
  | some key => .ok key
  | none => .error { cause := .unknownKey name }

/-- Changes the setting with a name. -/
def set (settings : Settings) (name value : String) : Except Failure Settings := do
  settings.change (← requireKey name) value

/-- Reads a value that may be left out. -/
def readOr {α : Type} (read : Toml.Value → Option α) (usual : α) (key : Key) (value : Toml.Value) :
    Option α :=
  match value.member? key.name with
  | none => some usual
  | some value => read value

/-- The kind of store that a value names: its name, or a table with the name alone in it and nothing
under it. -/
def backendOf? : Toml.Value → Option Backend
  | .string name => Backend.ofName? name
  | .table [(name, value)] => if value.isHollow then Backend.ofName? name else none
  | _ => none

/-- The settings of a table; those left out are the usual ones. -/
def ofToml? (home : String) (value : Toml.Value) : Option Settings := do
  let usual := usual home
  let dataDir ← readOr Toml.Value.text? usual.dataDir .dataDir value
  let backend ← readOr backendOf? usual.backend .backend value
  let maxResults ← readOr Toml.Value.count? usual.maxResults .maxResults value
  let maxSteps ← readOr Toml.Value.count? usual.maxSteps .maxSteps value
  let maxUnknowns ← readOr Toml.Value.count? usual.maxUnknowns .maxUnknowns value
  let maxRounds ← readOr Toml.Value.count? usual.maxRounds .maxRounds value
  some { dataDir, backend, maxResults, maxSteps, maxUnknowns, maxRounds }

/-- The settings that a text holds. -/
def ofText (home text : String) : Except Failure Settings :=
  match Toml.read? text >>= ofToml? home with
  | some settings => .ok settings
  | none => .error { cause := .unreadableToml }

/-- The text of the settings, unless a count is too large for it. -/
def toText (settings : Settings) : Except Failure String :=
  let counts := [(Key.maxResults, settings.maxResults), (.maxSteps, settings.maxSteps),
    (.maxUnknowns, settings.maxUnknowns), (.maxRounds, settings.maxRounds)]
  match counts.mapM fun count => Toml.countLine? count.1.name count.2 with
  | some lines => .ok <| String.join <|
      Toml.textLine Key.dataDir.name settings.dataDir ::
      Toml.textLine Key.backend.name settings.backend.name :: lines
  | none => .error { cause := .unwritableToml }

/-- The settings in the file of a home directory; the usual ones when there is none. -/
def load (home : String) (files : FileTree) : Except Failure Settings :=
  let path := filePath home
  if !files.contains path then .ok (usual home)
  else do
    let text ← (files.read path).mapError fun fault =>
      (Failure.ofFileFault fault).within (.read path)
    (ofText home text).mapError (·.within (.settings path))

/-- Writes the settings to a file in a directory that is there. -/
def write (settings : Settings) (path : String) (files : FileTree) : Except Failure FileTree := do
  let text ← settings.toText
  (files.write path (.text text)).mapError fun fault =>
    (Failure.ofFileFault fault).within (.write path)

/-- Writes the settings to the file of a home directory, which is made if it is missing. -/
def save (home : String) (settings : Settings) (files : FileTree) :
    Except Failure Unit × FileTree :=
  let path := filePath home
  match files.makeDirectories (Path.parent path) with
  | (.error fault, files) => (.error (.ofFileFault fault), files)
  | (.ok (), files) =>
    match settings.write path files with
    | .ok files => (.ok (), files)
    | .error failure => (.error failure, files)

end Settings

end KnowledgeGraph
