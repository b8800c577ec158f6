import KnowledgeGraph.Toml.Scalar
import KnowledgeGraph.Toml.Table

/-!
# Reading TOML text

A text is a sequence of lines, each a header, an assignment or nothing, with a comment behind it if
wanted; values in brackets and texts of several lines may go on over line ends. The lines are read
first and then assembled into one table.
-/

namespace KnowledgeGraph.Toml

/-- The text behind the blanks at its front. -/
def skipBlanks (text : List Char) : List Char := text.dropWhile isBlank

/-- The most keys that dots may join. -/
def greatestPath : Nat := 79

/-- Whether a character may stand in a key without quotes. -/
def isKeyChar (c : Char) : Bool := c.isAlphanum || c = '_' || c = '-'

/-- One key at the front of a text, bare or quoted on one line, and the rest. -/
def scanKey : List Char → Option (String × List Char)
  | '"' :: rest => (scanBasic rest).map fun found => (String.ofList found.1, found.2)
  | '\'' :: rest => (scanLiteral rest).map fun found => (String.ofList found.1, found.2)
  | text =>
    match text.span isKeyChar with
    | ([], _) => none
    | (key, rest) => some (String.ofList key, rest)

/-- Keys joined by dots: those on the way and the last one. Every key takes a character, so the
length of the text is fuel enough. -/
def scanKeys : Nat → List Char → Option ((List String × String) × List Char)
  | 0, _ => none
  | fuel + 1, text => do
    let (key, rest) ← scanKey (skipBlanks text)
    match skipBlanks rest with
    | '.' :: rest =>
      let ((path, last), rest) ← scanKeys fuel rest
      some ((key :: path, last), rest)
    | rest => some (([], key), rest)

/-- The keys at the front of a text. -/
def readKeys (text : List Char) : Option ((List String × String) × List Char) := do
  let found ← scanKeys (text.length + 1) text
  if found.1.1.length < greatestPath then some found else none

/-- How deep brackets and braces may stand in one another. -/
def greatestDepth : Nat := 79

/-- The text behind blanks, line ends and comments. -/
def skipLines (comment : Bool) : List Char → List Char
  | [] => []
  | '\r' :: '\n' :: rest => skipLines false rest
  | c :: rest =>
    if c = '\n' then skipLines false rest
    else if comment then if isPlain c then skipLines true rest else c :: rest
    else if c = '#' then skipLines true rest
    else if isBlank c then skipLines false rest
    else c :: rest

mutual

/-- The value at the front of a text, and the rest. -/
def readValue (depth : Nat) : Nat → List Char → Option (Value × List Char)
  | 0, _ => none
  | fuel + 1, text =>
    match text with
    | '[' :: rest =>
      if depth = 0 then none
      else match skipLines false rest with
        | ']' :: rest => some (.array [], rest)
        | rest => (readItems (depth - 1) fuel rest).map fun found => (.array found.1, found.2)
    | '{' :: rest =>
      if depth = 0 then none
      else match skipBlanks rest with
        | '}' :: rest => some (.table [], rest)
        | rest => do
          let (body, rest) ← readEntries (depth - 1) fuel rest
          some (← Value.ofAssignments? body, rest)
    | c :: rest =>
      if c = '"' ∨ c = '\'' then
        (scanText (c :: rest)).map fun found => (.string (String.ofList found.1), found.2)
      else scanWord (c :: rest)
    | [] => none

/-- The items up to the closing bracket, of which there is at least one. A comma may stand behind the
last one. -/
def readItems (depth : Nat) : Nat → List Char → Option (List Value × List Char)
  | 0, _ => none
  | fuel + 1, text => do
    let (item, rest) ← readValue depth fuel text
    match skipLines false rest with
    | ',' :: rest =>
      match skipLines false rest with
      | ']' :: rest => some ([item], rest)
      | rest => (readItems depth fuel rest).map fun found => (item :: found.1, found.2)
    | ']' :: rest => some ([item], rest)
    | _ => none

/-- The assignments up to the closing brace, of which there is at least one. -/
def readEntries (depth : Nat) : Nat → List Char → Option (List Assignment × List Char)
  | 0, _ => none
  | fuel + 1, text => do
    let (entry, rest) ← readAssignment depth fuel text
    match skipBlanks rest with
    | ',' :: rest =>
      (readEntries depth fuel rest).map fun found => (entry :: found.1, found.2)
    | '}' :: rest => some ([entry], rest)
    | _ => none

/-- Keys, an equals sign and a value. -/
def readAssignment (depth : Nat) : Nat → List Char → Option (Assignment × List Char)
  | 0, _ => none
  | fuel + 1, text => do
    let ((path, key), rest) ← readKeys text
    match rest with
    | '=' :: rest =>
      let (value, rest) ← readValue depth fuel (skipBlanks rest)
      some ({ path, key, value }, rest)
    | _ => none

end

/-- A line that says something. -/
inductive Line where
  /-- A header. -/
  | header (header : Header)
  /-- An assignment. -/
  | assignment (assignment : Assignment)

/-- The text behind the end of a line, before which a comment may stand. -/
def afterLine? (text : List Char) : Option (List Char) :=
  let rest := match skipBlanks text with
    | '#' :: rest => rest.dropWhile isPlain
    | rest => rest
  match rest with
  | [] => some []
  | '\n' :: rest => some rest
  | '\r' :: '\n' :: rest => some rest
  | _ => none

/-- The line at the front of a text, and the rest behind its end. Every step of the reader either
takes a character or enters the value behind one, and an assignment is a step of its own, so three
times the length is fuel enough. -/
def readLine (text : List Char) : Option (Option Line × List Char) :=
  match text with
  | '[' :: '[' :: rest => do
    let ((path, key), rest) ← readKeys rest
    match rest with
    | ']' :: ']' :: rest => some (some (.header (.element path key)), ← afterLine? rest)
    | _ => none
  | '[' :: rest => do
    let ((path, key), rest) ← readKeys rest
    match rest with
    | ']' :: rest => some (some (.header (.table path key)), ← afterLine? rest)
    | _ => none
  | text =>
    match afterLine? text with
    | some rest => some (none, rest)
    | none => do
      let (assignment, rest) ← readAssignment greatestDepth (3 * text.length + 3) text
      some (some (.assignment assignment), ← afterLine? rest)

/-- The lines of a text. Every line but the last takes a character, so the length of the text is fuel
enough. -/
def readLines : Nat → List Char → Option (List Line)
  | 0, _ => none
  | fuel + 1, text =>
    match skipBlanks text with
    | [] => some []
    | text => do
      let (line, rest) ← readLine text
      (readLines fuel rest).map (line.toList ++ ·)

/-- The assignments before the first header, and the sections. -/
def sections (lines : List Line) : List Assignment × List Section :=
  lines.foldr (fun line found =>
    match line with
    | .assignment assignment => (assignment :: found.1, found.2)
    | .header header => ([], { header, body := found.1 } :: found.2)) ([], [])

/-- The table that lines make together. -/
def Table.ofLines? (lines : List Line) : Option Table := do
  let (body, parts) := sections lines
  let root ← (Table.new .opened).fill? body
  parts.foldlM Table.addSection? root

/-- The table that a text denotes. A byte order mark may stand before it. -/
def read? (text : String) : Option Value := do
  let chars := match text.toList with
    | '\uFEFF' :: rest => rest
    | chars => chars
  let lines ← readLines (chars.length + 1) chars
  (Table.ofLines? lines).map Table.toValue

end KnowledgeGraph.Toml
