import KnowledgeGraph.CommandLine.Invocation
import KnowledgeGraph.Script.Running

/-!
# Carrying out commands

A command line is carried out on the files of a tree. The result is the exit code, the text printed,
the messages of a failure and the files afterwards. A durable store is opened before anything else is
read, and its file keeps what was done before a failure.
-/

namespace KnowledgeGraph.CommandLine

open Presentation

/-- The file of the durable store. -/
def tablesPath (settings : Settings) : String := Path.join settings.dataDir "semnet.redb"

/-- Opens the store of the settings. The directory of a durable one is made. -/
def openStore (settings : Settings) (files : FileTree) : Except Failure Store × FileTree :=
  match settings.backend with
  | .memory => (.ok (.memory .empty), files)
  | .durable =>
    match files.makeDirectories settings.dataDir with
    | (.error fault, files) => (.error (.ofFileFault fault), files)
    | (.ok (), files) =>
      match files.openTables (tablesPath settings) with
      | .error fault => (.error (.ofStoreFault fault), files)
      | .ok (tables, files) => (.ok (.durable tables), files)

/-- The files after the store of the settings is closed. One in memory is gone. -/
def closeStore (settings : Settings) (store : Store) (files : FileTree) : FileTree :=
  match store with
  | .memory _ => files
  | .durable tables => (files.write (tablesPath settings) (.tables tables)).toOption.getD files

/-- Works on the store of the settings. -/
def withStore {α : Type} (settings : Settings) (files : FileTree)
    (work : FileTree → Store → Except Failure α × Store) : Except Failure α × FileTree :=
  match openStore settings files with
  | (.error failure, files) => (.error failure, files)
  | (.ok store, files) =>
    let (result, store) := work files store
    (result, closeStore settings store files)

/-- A graph in a format, or a phrase in place of the empty graph. -/
def shownOr (phrase : String) (format : Format) (g : Graph) : String :=
  if g.isEmpty then phrase else graphText format g

/-- What is printed of a concept, or of the stored graph. -/
def shown (format : Format) (store : Store) : Option String → Except Failure String
  | none => do
    let g ← store.load.mapError Failure.ofFault
    .ok (shownOr "Store is empty" format g)
  | some concept => do
    let g ← (store.concept concept).mapError Failure.ofFault
    .ok (shownOr s!"Concept '{concept}' not found" format g)

/-- Carries out a command on a store. -/
def StoreCommand.perform (command : StoreCommand) (settings : Settings) (format : Format)
    (files : FileTree) (store : Store) : Except Failure String × Store :=
  match command with
  | .load file =>
    match files.readGraph file with
    | .error failure => (.error failure, store)
    | .ok g =>
      match store.saveOrFail g with
      | (.error failure, store) => (.error failure, store)
      | (.ok (), store) =>
        (.ok s!"Loaded {g.concepts.size} concepts, {g.relations.size} relations", store)
  | .display concept => (shown format store concept, store)
  | .query file =>
    let found := do
      let pattern ← files.readGraph file
      (store.query {} pattern).mapError Failure.ofFault
    (found.map (shownOr noMatch format), store)
  | .rule name commit =>
    match store.conclude settings.limits name with
    | .error failure => (.error failure, store)
    | .ok g =>
      if commit && !g.isEmpty then
        match store.saveOrFail g with
        | (.error failure, store) => (.error failure, store)
        | (.ok (), store) => (.ok (graphText format g), store)
      else (.ok (shownOr noMatch format g), store)
  | .delete concept =>
    match store.deleteConcept concept with
    | .error fault => (.error (.ofFault fault), store)
    | .ok store => (.ok s!"Deleted concept '{concept}'", store)
  | .clear => (.ok "Store cleared", store.clear)

/-- What is printed of the matches of an outline file in another. -/
def searchText (settings : Settings) (format : Format) (files : FileTree) (query data : String)
    (includeQuery : Bool) : Except Failure String := do
  let query ← files.readGraph query
  let data ← files.readGraph data
  let graphs ← (Matching.matchGraphs { includeQuery, limits := settings.limits } query
    data).mapError Failure.ofFault
  .ok (graphsText format graphs)

/-- What is printed of the application of a rule file to a graph file. -/
def applyText (settings : Settings) (format : Format) (files : FileTree) (rule memory : String)
    (all : Bool) : Except Failure String := do
  let ruleGraph ← files.readGraph rule
  let memory ← files.readGraph memory
  let graphs ← (Rule.ofGraph ruleGraph >>= fun rule =>
    if all then rule.applyAll settings.limits memory
    else (rule.applyFirst settings.limits memory).map fun g =>
      if g.isEmpty then [] else [g]).mapError Failure.ofFault
  .ok (graphsText format graphs)

/-- A report of chaining in words. -/
def reportText (report : Chaining.Report) : String :=
  let ending := if report.reachedFixpoint then "fixpoint reached" else "round limit reached"
  s!"{report.rounds} rounds, {report.firings} firings, +{report.addedConcepts} concepts, " ++
    s!"+{report.addedRelations} relations, {ending}"

/-- What is printed of the chaining of rule files over a graph file. -/
def chainText (settings : Settings) (format : Format) (files : FileTree) (memory : String)
    (rules : List String) (maxRounds : Option Nat) : Except Failure String := do
  let memory ← files.readGraph memory
  let rules ← rules.mapM files.readGraph
  let (report, memory) :=
    Chaining.run settings.limits rules memory (maxRounds.getD settings.maxRounds)
  let report ← report.mapError Failure.ofFault
  match format with
  | .record =>
    .ok (Json.object [("memory", memory.toJson), ("report", report.toJson)]).pretty
  | .outline => .ok (graphText format memory ++ "\n" ++ reportText report)

/-- What is printed of an outcome of a script. -/
def outcomeText (format : Format) : Outcome → String
  | .noAnswer => noMatch
  | .answer g => graphText format g
  | outcome => valueText format outcome.toJson

/-- What is printed of the outcomes of a script, numbered from one. -/
def outcomeLines (format : Format) (outcomes : List Outcome) : List String :=
  outcomes.zipIdx.map fun (outcome, index) => s!"{index + 1}: {outcomeText format outcome}"

/-- Carries out a command on the settings of a home directory. -/
def SettingsCommand.perform (command : SettingsCommand) (home : String) (files : FileTree) :
    Except Failure (List String) × FileTree :=
  match command with
  | .get name =>
    let shown := do
      let settings ← Settings.load home files
      .ok [settings.text (← Settings.requireKey name)]
    (shown, files)
  | .set name value =>
    match Settings.load home files >>= fun settings => settings.set name value with
    | .error failure => (.error failure, files)
    | .ok settings =>
      let (saved, files) := settings.save home files
      (saved.map fun _ => [], files)
  | .list =>
    let shown := do
      let settings ← Settings.load home files
      .ok (Settings.Key.all.map fun key => s!"{key.name} = {settings.text key}")
    (shown, files)
  | .path => (.ok [Settings.filePath home], files)
  | .init force =>
    let path := Settings.filePath home
    if files.contains path && !force then (.error { cause := .settingsExist path }, files)
    else
      let (saved, files) := (Settings.usual home).save home files
      (saved.map fun _ => [s!"Created config file at {path}"], files)

/-- Carries out a command other than those on the settings. -/
def Command.perform (command : Command) (settings : Settings) (format : Format)
    (files : FileTree) : Except Failure (List String) × FileTree :=
  match command with
  | .search query data includeQuery =>
    ((searchText settings format files query data includeQuery).map ([·]), files)
  | .apply rule memory all => ((applyText settings format files rule memory all).map ([·]), files)
  | .chain memory rules maxRounds =>
    ((chainText settings format files memory rules maxRounds).map ([·]), files)
  | .store command =>
    let (result, files) := withStore settings files (command.perform settings format)
    (result.map ([·]), files)
  | .run path =>
    match Script.read files path with
    | .error failure => (.error failure, files)
    | .ok script =>
      let script := { script with maxRounds := settings.maxRounds }
      let (result, files) := withStore settings files fun files store =>
        script.run files settings.limits store
      (result.map (outcomeLines format), files)
  | .settings _ | .completions _ => (.ok [], files)

/-- The lines that an invocation prints, or why it fails, and the files afterwards. Commands on the
settings print theirs also when results are not shown. -/
def Invocation.perform (invocation : Invocation) (home : String) (files : FileTree) :
    Except Failure (List String) × FileTree :=
  match invocation.command with
  | .settings command => command.perform home files
  | .completions _ => (.ok [], files)
  | command =>
    match Settings.load home files with
    | .error failure => (.error failure, files)
    | .ok settings =>
      let (result, files) :=
        command.perform (invocation.override settings) invocation.format files
      (result.map fun lines => if invocation.quiet then [] else lines, files)

/-- What a run of the program leaves. -/
structure Result where
  /-- The exit code. -/
  code : Nat
  /-- The text printed. -/
  output : String := ""
  /-- The messages of a failure, the widest context first. -/
  errors : List String := []
  /-- The files afterwards. -/
  files : FileTree

/-- The name and the version of the program. -/
def versionText : String := "semnet 0.1.0"

/-- Lines as they are printed. -/
def printed (lines : List String) : String := String.join (lines.map (· ++ "\n"))

/-- Carries out a command line. -/
def run (home : String) (words : List String) (files : FileTree) : Result :=
  match Invocation.ofWords words with
  | .error .help => { code := 0, files }
  | .error .version => { code := 0, output := printed [versionText], files }
  | .error .refused => { code := 2, files }
  | .ok invocation =>
    match invocation.perform home files with
    | (.ok lines, files) => { code := 0, output := printed lines, files }
    | (.error failure, files) => { code := 1, errors := failure.messages, files }

end KnowledgeGraph.CommandLine
