/-!
# Paths

A path is a text of names set apart by slashes. It is kept as it is written; only when a file is looked
for are its parts taken one by one. An empty part and the part `.` stay where they are and `..` goes
up.
-/

namespace KnowledgeGraph.Path

/-- Whether a path starts at the root. -/
def isAbsolute (path : String) : Bool := path.toList.head? = some '/'

/-- The parts between the slashes of a path. The slash of the root is none of them. -/
def parts (path : String) : List String :=
  let texts := (path.toList.splitOn '/').map String.ofList
  if isAbsolute path then texts.drop 1 else texts

/-- A path taken from a directory. One that starts at the root stays what it is. -/
def join (directory path : String) : String :=
  if isAbsolute path || directory.isEmpty then path
  else if directory.toList.getLast? = some '/' then directory ++ path
  else directory ++ "/" ++ path

/-- Whether a part goes nowhere. -/
def isIdle (part : String) : Bool := part.isEmpty || part = "."

/-- The parts that matter: all but the idle ones, apart from a leading `.`. -/
def keyParts (path : String) : List String :=
  let matters := (parts path).filter fun part => !isIdle part
  if !isAbsolute path && (parts path).head? = some "." then "." :: matters else matters

/-- Two paths have the same parts that matter, however many slashes they are written with. -/
def Same (first second : String) : Prop :=
  isAbsolute first = isAbsolute second ∧ keyParts first = keyParts second

instance (first second : String) : Decidable (Same first second) :=
  inferInstanceAs (Decidable (_ ∧ _))

/-- The parts without the idle ones at the end. A leading `.` is kept. -/
def trimIdle (absolute : Bool) (parts : List String) : List String :=
  match (parts.reverse.dropWhile isIdle).reverse, parts with
  | [], "." :: _ => if absolute then [] else ["."]
  | kept, _ => kept

/-- The directory that a path names as the one of its last part; empty for a single name, and for a
path that names none. -/
def parent (path : String) : String :=
  let absolute := isAbsolute path
  let above := trimIdle absolute (trimIdle absolute (parts path)).dropLast
  let text := String.intercalate "/" above
  if absolute then "/" ++ text else text

end KnowledgeGraph.Path
