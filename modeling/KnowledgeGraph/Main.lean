import KnowledgeGraph.CommandLine.Inputs
import KnowledgeGraph.Store.Record

/-!
# The program

Reads the files that a command line looks at into a tree, carries the line out on it, writes back what
has changed and prints the result.
-/

namespace KnowledgeGraph.Main

/-- The places that a path passes from a place on, the last one included. -/
def placesOf : Place → List String → List Place
  | _, [] => []
  | place, part :: parts =>
    match FileTree.enter place part with
    | .ok next => next :: placesOf next parts
    | .error _ => []

/-- What is at a place of the disk. A file that is no text stands as one unreadable character. -/
def entryAt (place : Place) : IO (Option FileEntry) := do
  try
    return some (.text (← IO.FS.readFile place.text))
  catch
    | .noFileOrDirectory .. => return none
    | .inappropriateType .. => return some .directory
    | _ => return some (.text "\uFFFD")

/-- Adds what is at the places of a path to a tree, up to the first that is missing or no directory. -/
def addPlaces (tree : FileTree) : List Place → IO FileTree
  | [] => return tree
  | place :: places => do
    match tree.entry? place with
    | some .directory => addPlaces tree places
    | some _ => return tree
    | none =>
      match ← entryAt place with
      | none => return tree
      | some entry => addPlaces (tree.put place entry) places

/-- Adds what is at a path to a tree. -/
def addPath (tree : FileTree) (path : String) : IO FileTree :=
  addPlaces tree (placesOf (.start (Path.isAbsolute path)) (Path.parts path))

/-- Adds the tables of the store at a path to a tree. -/
def addStore (tree : FileTree) (path : String) : IO FileTree := do
  let tree ← addPath tree path
  match tree.read path with
  | .ok text =>
    match Tables.ofText? text with
    | some tables => return (tree.write path (.tables tables)).toOption.getD tree
    | none => return tree
  | .error _ => return tree

/-- The tree of what a command line looks at. The settings tell the store and a script its files, so
the paths are gone through once more when these are known. -/
def inputs (home : String) (words : List String) : IO FileTree := do
  let known ← (CommandLine.textPaths home words {}).foldlM addPath {}
  let known ← (CommandLine.textPaths home words known).foldlM addPath known
  match CommandLine.storePath? home words known with
  | some path => addStore known path
  | none => return known

/-- Writes an entry to the disk. -/
def writeEntry (path : String) : FileEntry → IO Unit
  | .directory => IO.FS.createDirAll path
  | .text content => IO.FS.writeFile path content
  | .tables tables => IO.FS.writeFile path tables.toJson.compact

/-- Writes the entries of a tree that are not in another one. A directory comes before what is in
it. -/
def writeChanges (before after : FileTree) : IO Unit :=
  after.entries.entries.forM fun (path, entry) =>
    if before.entries.get? path = some entry then pure () else writeEntry path entry

/-- The messages of a failure as they are printed. -/
def errorText : List String → String
  | [] => ""
  | [message] => s!"Error: {message}"
  | [message, cause] => s!"Error: {message}\n\nCaused by:\n    {cause}"
  | message :: causes =>
    let numbered := causes.zipIdx.map fun (cause, index) => s!"    {index}: {cause}"
    s!"Error: {message}\n\nCaused by:\n" ++ String.intercalate "\n" numbered

/-- What is printed of a command line that does not fit the grammar. -/
def usageText : String :=
  "Usage: semnet [OPTIONS] <match|apply|chain|store|run|config|completions>"

end KnowledgeGraph.Main

open KnowledgeGraph in
/-- Runs the program. -/
def main (words : List String) : IO UInt32 := do
  let home := ((← IO.getEnv "HOME").filter fun home => !home.isEmpty).getD "."
  let before ← Main.inputs home words
  let result := CommandLine.run home words before
  Main.writeChanges before result.files
  IO.print result.output
  if result.code = 2 then IO.eprintln Main.usageText
  else if !result.errors.isEmpty then IO.eprintln (Main.errorText result.errors)
  return result.code.toUInt32
