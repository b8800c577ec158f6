import KnowledgeGraph.CommandLine.Execution

/-!
# What a command line reads

The paths that a run looks at are told from the command line and from the files known so far: the
settings first, which name the store, and a script, which names further files. A run is carried out on
a tree that has what is at these paths.
-/

namespace KnowledgeGraph.CommandLine

/-- The paths that a command names. -/
def Command.paths : Command → List String
  | .search query data _ => [query, data]
  | .apply rule memory _ => [rule, memory]
  | .chain memory rules _ => memory :: rules
  | .store (.load file) => [file]
  | .store (.query file) => [file]
  | .run script => [script]
  | _ => []

/-- Whether a command works on the store of the settings. -/
def Command.usesStore : Command → Bool
  | .store _ => true
  | .run _ => true
  | _ => false

/-- The files that the script of a command names. -/
def Command.scriptPaths (files : FileTree) : Command → List String
  | .run path =>
    match Script.read files path with
    | .ok script => script.files
    | .error _ => []
  | _ => []

/-- The path of the store that an invocation works on, if it does. -/
def Invocation.storePath? (invocation : Invocation) (home : String) (files : FileTree) :
    Option String :=
  if invocation.command.usesStore then
    match Settings.load home files with
    | .ok settings =>
      match (invocation.override settings).backend with
      | .durable => some (tablesPath (invocation.override settings))
      | .memory => none
    | .error _ => none
  else none

/-- The paths of texts that a command line reads, as far as the files known so far tell. -/
def textPaths (home : String) (words : List String) (files : FileTree) : List String :=
  match Invocation.ofWords words with
  | .ok invocation =>
    Settings.filePath home ::
      (invocation.command.paths ++ invocation.command.scriptPaths files)
  | .error _ => []

/-- The path of the store that a command line works on, as far as the files known so far tell. -/
def storePath? (home : String) (words : List String) (files : FileTree) : Option String :=
  match Invocation.ofWords words with
  | .ok invocation => invocation.storePath? home files
  | .error _ => none

end KnowledgeGraph.CommandLine
