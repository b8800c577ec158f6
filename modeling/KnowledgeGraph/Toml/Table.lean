import KnowledgeGraph.Toml.Value

/-!
# Assembling TOML tables

A document is a root table, filled by the assignments before the first header, and sections, each a
header with assignments behind it. A table remembers how it came to be, because that decides who may
still add to it: a header opens a table once, also one that was only passed on the way to another; dotted
keys extend only the tables that dotted keys have made; and a header that passes through a list of
tables means the last one.
-/

namespace KnowledgeGraph.Toml

/-- How a table came to be. -/
inductive Origin where
  /-- It is the root, was opened by a header, or is written in braces. -/
  | opened
  /-- It was passed on the way to the table of a header. -/
  | passed
  /-- It was passed by a dotted key. -/
  | dotted
  deriving DecidableEq

mutual

/-- A table that is being assembled. -/
inductive Table where
  /-- A table with entries in increasing key order. -/
  | mk (origin : Origin) (entries : List (String × Node))

/-- What stands under a key of a table that is being assembled. -/
inductive Node where
  /-- A value that an assignment has given. -/
  | value (value : Value)
  /-- A table. -/
  | table (table : Table)
  /-- A list of tables, the last one apart. -/
  | tables (earlier : List Table) (last : Table)

end

/-- A key with the keys on the way to its table, and the value it gets. -/
structure Assignment where
  /-- The keys on the way. -/
  path : List String
  /-- The key itself. -/
  key : String
  /-- The value. -/
  value : Value

/-- What a header opens. -/
inductive Header where
  /-- The table under a key at the end of a path. -/
  | table (path : List String) (key : String)
  /-- A new last table of the list under a key at the end of a path. -/
  | element (path : List String) (key : String)

/-- A header and the assignments behind it. -/
structure Section where
  /-- The header. -/
  header : Header
  /-- The assignments up to the next header. -/
  body : List Assignment

namespace Table

/-- How a table came to be. -/
def origin : Table → Origin
  | mk origin _ => origin

/-- The entries in increasing key order. -/
def entries : Table → List (String × Node)
  | mk _ entries => entries

/-- A table without entries. -/
def new (origin : Origin) : Table := mk origin []

/-- What stands under a key. -/
def find? (table : Table) (key : String) : Option Node := Ascending.find? key table.entries

/-- The table with something else under a key. -/
def put (table : Table) (key : String) (node : Node) : Table :=
  mk table.origin (Ascending.put key node table.entries)

/-- Edits the table at the end of a path. Tables missing on the way are made, as `passed` or as
`dotted` ones; dotted keys may not go through a table that was opened. -/
def editAt? (step : Origin) (edit : Table → Option Table) : List String → Table → Option Table
  | [], table => edit table
  | key :: path, table =>
    match table.find? key with
    | none => do
      let child ← editAt? step edit path (new step)
      some (table.put key (.table child))
    | some (.value _) => none
    | some (.table child) =>
      if step = .dotted ∧ child.origin = .opened then none
      else do
        let child ← editAt? step edit path child
        some (table.put key (.table child))
    | some (.tables earlier last) => do
      let last ← editAt? step edit path last
      some (table.put key (.tables earlier last))

/-- Gives a key its value. The key must be new, and the table that gets it must be the one at hand or
one that dotted keys have made. -/
def assign? (table : Table) (assignment : Assignment) : Option Table :=
  table.editAt? .dotted (fun inner =>
    if decide (inner.origin = .dotted) = assignment.path.isEmpty then none
    else if (inner.find? assignment.key).isSome then none
    else some (inner.put assignment.key (.value assignment.value))) assignment.path

/-- Makes assignments one after the other. -/
def fill? (table : Table) (body : List Assignment) : Option Table := body.foldlM assign? table

/-- Adds a section to a document. -/
def addSection? (root : Table) (part : Section) : Option Table :=
  match part.header with
  | .table path key =>
    root.editAt? .passed (fun parent => do
      let start ← match parent.find? key with
        | none => some (new .opened)
        | some (.table (.mk .passed entries)) => some (.mk .opened entries)
        | some _ => none
      let table ← start.fill? part.body
      some (parent.put key (.table table))) path
  | .element path key =>
    root.editAt? .passed (fun parent => do
      let table ← (new .opened).fill? part.body
      match parent.find? key with
      | none => some (parent.put key (.tables [] table))
      | some (.tables earlier last) => some (parent.put key (.tables (earlier ++ [last]) table))
      | some _ => none) path

end Table

mutual

/-- The value of an assembled table. -/
def Table.toValue : Table → Value
  | .mk _ entries => .table (entryValues entries)

/-- The value of what stands under a key. -/
def Node.toValue : Node → Value
  | .value value => value
  | .table table => table.toValue
  | .tables earlier last => .array (tableValues earlier ++ [last.toValue])

/-- The values of entries. -/
def entryValues : List (String × Node) → List (String × Value)
  | [] => []
  | (key, node) :: entries => (key, node.toValue) :: entryValues entries

/-- The values of a list of tables. -/
def tableValues : List Table → List Value
  | [] => []
  | table :: tables => table.toValue :: tableValues tables

end

/-- The value of a table in braces, or none when its assignments do not fit together. -/
def Value.ofAssignments? (body : List Assignment) : Option Value :=
  ((Table.new .opened).fill? body).map Table.toValue

end KnowledgeGraph.Toml
