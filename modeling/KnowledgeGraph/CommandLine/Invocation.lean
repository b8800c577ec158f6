import KnowledgeGraph.CommandLine.Grammar
import KnowledgeGraph.Presentation
import KnowledgeGraph.Settings.Basic

/-!
# Commands

The commands of the program, the command lines that ask for them, and what a line changes of the
settings for its run.
-/

namespace KnowledgeGraph.CommandLine

/-- A command on the store. -/
inductive StoreCommand where
  /-- Adds the graph of an outline file. -/
  | load (file : String)
  /-- Shows the stored graph, or one concept of it. -/
  | display (concept : Option String)
  /-- Shows what the matches of an outline file cut out of the stored graph. -/
  | query (file : String)
  /-- Shows what follows from a stored rule and, if wanted, adds it. -/
  | rule (name : String) (commit : Bool)
  /-- Deletes a concept. -/
  | delete (concept : String)
  /-- Deletes everything. -/
  | clear
  deriving DecidableEq

/-- A command on the settings. -/
inductive SettingsCommand where
  /-- Shows a setting. -/
  | get (name : String)
  /-- Changes a setting in the file. -/
  | set (name value : String)
  /-- Shows all settings. -/
  | list
  /-- Shows the path of the file. -/
  | path
  /-- Writes the usual settings to the file, over an existing one only if forced. -/
  | init (force : Bool)
  deriving DecidableEq

/-- A command. -/
inductive Command where
  /-- Looks for the outline in one file in that of another. -/
  | search (query data : String) (includeQuery : Bool)
  /-- Applies the rule in one file to the graph in another, to the first match or to all. -/
  | apply (rule memory : String) (all : Bool)
  /-- Chains the rules in some files over the graph in another. -/
  | chain (memory : String) (rules : List String) (maxRounds : Option Nat)
  /-- Works on the store. -/
  | store (command : StoreCommand)
  /-- Runs the script in a file on the store. -/
  | run (script : String)
  /-- Works on the settings. -/
  | settings (command : SettingsCommand)
  /-- Asks for the completions of a shell, of which there are none. -/
  | completions (shell : String)
  deriving DecidableEq

/-- A command, and what holds for its run alone. -/
structure Invocation where
  /-- The command. -/
  command : Command
  /-- The directory of the durable store, if another than in the settings. -/
  dataDir : Option String := none
  /-- The kind of store, if another than in the settings. -/
  backend : Option Backend := none
  /-- How results are shown. -/
  format : Presentation.Format := .outline
  /-- Whether results are not shown at all. -/
  quiet : Bool := false
  deriving DecidableEq

/-- A format by its name. -/
def formatOf? (name : String) : Option Presentation.Format :=
  if name = "notation" then some .outline else if name = "json" then some .record else none

/-- The shells that completions can be asked for. -/
def shells : List String := ["bash", "elvish", "fish", "powershell", "zsh"]

/-- Flags that may stand behind every command. -/
def commonFlags : List Flag :=
  [{ name := "data-dir", letter := some 'd', kind := .value fun path => !path.isEmpty },
    { name := "backend", letter := some 'b', kind := .value fun name => (Backend.ofName? name).isSome },
    { name := "format", letter := some 'f', kind := .value fun name => (formatOf? name).isSome },
    { name := "verbose", letter := some 'v', kind := .counter },
    { name := "quiet", letter := some 'q', kind := .switch },
    { name := "help", letter := some 'h', kind := .stop .help }]

/-- A place for a path. -/
def pathPlace : Place := { accepts := fun path => !path.isEmpty }

/-- A place for any word. -/
def wordPlace : Place := { accepts := fun _ => true }

/-- A command without further commands. -/
def leaf (places : List Place) (switches : List String) : Grammar :=
  .mk (commonFlags ++ switches.map fun name => { name, kind := .switch }) places []

/-- The commands on the store. -/
def storeGrammar : Grammar :=
  .mk commonFlags []
    [("load", leaf [pathPlace] []), ("show", leaf [{ wordPlace with optional := true }] []),
      ("query", leaf [pathPlace] []), ("rule", leaf [wordPlace] ["commit"]),
      ("delete", leaf [wordPlace] []), ("clear", leaf [] [])]

/-- The commands on the settings. -/
def settingsGrammar : Grammar :=
  .mk commonFlags []
    [("get", leaf [wordPlace] []), ("set", leaf [wordPlace, wordPlace] []), ("list", leaf [] []),
      ("path", leaf [] []), ("init", leaf [] ["force"])]

/-- The chaining of rules. -/
def chainGrammar : Grammar :=
  .mk
    (commonFlags ++ [{ name := "max-rounds", kind := .value fun text => (Word64.parse text).isOk }])
    [pathPlace, { pathPlace with endless := true }] []

/-- The grammar of all commands. -/
def grammar : Grammar :=
  .mk (commonFlags ++ [{ name := "version", letter := some 'V', kind := .stop .version }]) []
    [("match", leaf [pathPlace, pathPlace] ["include-query"]),
      ("apply", leaf [pathPlace, pathPlace] ["all"]), ("chain", chainGrammar),
      ("store", storeGrammar), ("run", leaf [pathPlace] []), ("config", settingsGrammar),
      ("completions", leaf [{ accepts := shells.contains }] [])]

/-- The command that a reading asks for. -/
def Command.ofReading? (reading : Reading) : Option Command :=
  match reading.path, reading.words with
  | ["match"], [query, data] => some (.search query data (reading.has "include-query"))
  | ["apply"], [rule, memory] => some (.apply rule memory (reading.has "all"))
  | ["chain"], memory :: rules =>
    let maxRounds := (reading.value? "max-rounds").bind fun text => (Word64.parse text).toOption
    some (.chain memory rules maxRounds)
  | ["store", "load"], [file] => some (.store (.load file))
  | ["store", "show"], words => some (.store (.display words.head?))
  | ["store", "query"], [file] => some (.store (.query file))
  | ["store", "rule"], [name] => some (.store (.rule name (reading.has "commit")))
  | ["store", "delete"], [concept] => some (.store (.delete concept))
  | ["store", "clear"], [] => some (.store .clear)
  | ["run"], [script] => some (.run script)
  | ["config", "get"], [name] => some (.settings (.get name))
  | ["config", "set"], [name, value] => some (.settings (.set name value))
  | ["config", "list"], [] => some (.settings .list)
  | ["config", "path"], [] => some (.settings .path)
  | ["config", "init"], [] => some (.settings (.init (reading.has "force")))
  | ["completions"], [shell] => some (.completions shell)
  | _, _ => none

/-- What a reading asks for. -/
def Invocation.ofReading? (reading : Reading) : Option Invocation := do
  some
    { command := ← Command.ofReading? reading
      dataDir := reading.value? "data-dir"
      backend := (reading.value? "backend").bind Backend.ofName?
      format := ((reading.value? "format").bind formatOf?).getD .outline
      quiet := reading.has "quiet" }

/-- What a command line asks for. -/
def Invocation.ofWords (words : List String) : Except Stop Invocation := do
  match Invocation.ofReading? (← read grammar words) with
  | some invocation => .ok invocation
  | none => .error .refused

/-- The settings of a run. -/
def Invocation.override (invocation : Invocation) (settings : Settings) : Settings :=
  { settings with
    dataDir := invocation.dataDir.getD settings.dataDir
    backend := invocation.backend.getD settings.backend }

end KnowledgeGraph.CommandLine
