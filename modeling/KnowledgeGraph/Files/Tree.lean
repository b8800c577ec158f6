import KnowledgeGraph.Files.Path
import KnowledgeGraph.Store.Tables

/-!
# File trees

A file tree holds the texts, tables and directories that are known by their places. The directory that
paths start from is there from the beginning, as are those above it and the root. A place below a file
cannot be reached, and one below a missing directory is missing.
-/

namespace KnowledgeGraph

/-- A place in a file tree. -/
structure Place where
  /-- Whether the names lead from the root. -/
  absolute : Bool
  /-- How many directories the names start above the usual one. -/
  up : Nat
  /-- The names, the last one first. -/
  names : List String
  deriving DecidableEq

namespace Place

/-- The place that the parts of a path start from. -/
def start (absolute : Bool) : Place := ⟨absolute, 0, []⟩

/-- The directory of a place. The root is its own. -/
def parent (place : Place) : Place :=
  match place.names with
  | _ :: names => { place with names }
  | [] => if place.absolute then place else { place with up := place.up + 1 }

/-- The place of a name in a directory. -/
def child (place : Place) (name : String) : Place := { place with names := name :: place.names }

/-- The shortest path to a place. -/
def text (place : Place) : String :=
  let names := List.replicate place.up ".." ++ place.names.reverse
  (if place.absolute then "/" else "") ++ String.intercalate "/" names

end Place

/-- What is at a place. -/
inductive FileEntry where
  /-- A directory. -/
  | directory
  /-- A file of text. -/
  | text (content : String)
  /-- The file of a store. -/
  | tables (tables : Tables)
  deriving DecidableEq

/-- Files and directories by the shortest paths to their places. -/
structure FileTree where
  /-- The entries. -/
  entries : Dict FileEntry := .empty
  deriving DecidableEq

namespace FileTree

/-- What is at a place, if anything. -/
def entry? (tree : FileTree) (place : Place) : Option FileEntry :=
  if place.names.isEmpty then some .directory else tree.entries.get? place.text

/-- The tree with something else at a place. -/
def put (tree : FileTree) (place : Place) (entry : FileEntry) : FileTree :=
  ⟨tree.entries.insert place.text entry⟩

/-- The most bytes of a name. -/
def nameBytes : Nat := 255

/-- The most bytes of a path. -/
def pathBytes : Nat := 4095

/-- A path that can be looked for is not empty, has no zero character and is not too long. -/
def checkPath (path : String) : Except FileFault Unit :=
  if path.toList.contains '\x00' then .error .zeroInName
  else if path.isEmpty then .error .notFound
  else if pathBytes < path.utf8ByteSize then .error .nameTooLong
  else .ok ()

/-- The place that a part leads to from a directory. -/
def enter (place : Place) (part : String) : Except FileFault Place :=
  if Path.isIdle part then .ok place
  else if part = ".." then .ok place.parent
  else if nameBytes < part.utf8ByteSize then .error .nameTooLong
  else .ok (place.child part)

/-- The place that parts lead to. All that they pass must be directories; at the place itself there may
be nothing. -/
def walk (tree : FileTree) : Place → List String → Except FileFault Place
  | place, [] => .ok place
  | place, part :: parts =>
    match tree.entry? place with
    | some .directory => do walk tree (← enter place part) parts
    | some _ => .error .notDirectory
    | none => .error .notFound

/-- The place of a path. -/
def find (tree : FileTree) (path : String) : Except FileFault Place := do
  checkPath path
  tree.walk (.start (Path.isAbsolute path)) (Path.parts path)

/-- Whether there is something at a path. -/
def contains (tree : FileTree) (path : String) : Bool :=
  match tree.find path with
  | .ok place => (tree.entry? place).isSome
  | .error _ => false

/-- The text of the file at a path. -/
def read (tree : FileTree) (path : String) : Except FileFault String := do
  match tree.entry? (← tree.find path) with
  | some (.text content) => .ok content
  | some (.tables _) => .error .notText
  | some .directory => .error .isDirectory
  | none => .error .notFound

/-- Whether a path ends in a slash, which only that of a directory may. -/
def endsInSlash (path : String) : Bool := path.toList.getLast? = some '/'

/-- Writes a file at a path, in a directory that is there. -/
def write (tree : FileTree) (path : String) (entry : FileEntry) : Except FileFault FileTree := do
  let place ← tree.find path
  if tree.entry? place = some .directory ∨ endsInSlash path then .error .isDirectory
  else .ok (tree.put place entry)

/-- Whether there is a directory at a path. -/
def isDirectory (tree : FileTree) (path : String) : Bool :=
  match tree.find path with
  | .ok place => tree.entry? place = some .directory
  | .error _ => false

/-- Makes the directory of a path where there is nothing yet. All that the path passes must be there;
slashes at its end do not matter. -/
def makeDirectory (tree : FileTree) (path : String) : Except FileFault FileTree := do
  checkPath path
  let parts := ((Path.parts path).reverse.dropWhile String.isEmpty).reverse
  let place ← tree.walk (.start (Path.isAbsolute path)) parts
  if (tree.entry? place).isSome then .error .occupied else .ok (tree.put place .directory)

/-- A directory that cannot be made is no matter when there is one. -/
def unlessDirectory (tree : FileTree) (path : String) (fault : FileFault) : Except FileFault Unit :=
  if tree.isDirectory path then .ok () else .error fault

/-- Makes the directory of a path and, where something on the way to it is missing, first the one
above. Those that are made stay when it cannot be reached. -/
def makeDirectoriesWithin : Nat → FileTree → String → Except FileFault Unit × FileTree
  | 0, tree, _ => (.ok (), tree)
  | fuel + 1, tree, path =>
    if path.isEmpty then (.ok (), tree)
    else match tree.makeDirectory path with
      | .ok tree => (.ok (), tree)
      | .error .notFound =>
        match makeDirectoriesWithin fuel tree (Path.parent path) with
        | (.error fault, tree) => (.error fault, tree)
        | (.ok (), tree) =>
          match tree.makeDirectory path with
          | .ok tree => (.ok (), tree)
          | .error fault => (tree.unlessDirectory path fault, tree)
      | .error fault => (tree.unlessDirectory path fault, tree)

/-- Makes the directory of a path and those on the way to it. The empty path needs none. Every step up
takes a part away, so the parts are fuel enough. -/
def makeDirectories (tree : FileTree) (path : String) : Except FileFault Unit × FileTree :=
  makeDirectoriesWithin ((Path.parts path).length + 1) tree path

/-- Writes a text file and makes the directories on the way to it, if they can be made. -/
def addFile (tree : FileTree) (path content : String) : FileTree :=
  let made := (tree.makeDirectories (Path.parent path)).2
  match made.write path (.text content) with
  | .ok written => written
  | .error _ => made

/-- The tree of text files given by their paths. -/
def ofFiles (files : List (String × String)) : FileTree :=
  files.foldl (fun tree file => tree.addFile file.1 file.2) {}

/-- Opens the store in the file at a path, which is made when it is missing or empty, and brings it to
the current version. -/
def openTables (tree : FileTree) (path : String) : Except StoreFault (Tables × FileTree) :=
  match tree.find path with
  | .error fault => .error (.database fault)
  | .ok place =>
    match tree.entry? place with
    | none | some (.text "") => .ok (.new, tree.put place (.tables .new))
    | some (.tables tables) => do
      let tables ← tables.reopen
      .ok (tables, tree.put place (.tables tables))
    | some (.text _) => .error (.database .notTables)
    | some .directory => .error (.database .isDirectory)

end FileTree

end KnowledgeGraph
