import KnowledgeGraph.Toml.Scalar

/-!
# Writing TOML text

A text is written in the plainest of four styles in which it needs no escape: between quotes on one
line, literally on one line, between three quotes, literally between three. A text that needs escapes
in each of them is written with escapes, between three quotes if it has a line end.
-/

namespace KnowledgeGraph.Toml

/-- How a text stands between quotes. -/
inductive Style where
  /-- Between double quotes. -/
  | basic
  /-- Literally between single quotes. -/
  | literal
  /-- Between three double quotes. -/
  | lines
  /-- Literally between three single quotes. -/
  | literalLines
  deriving DecidableEq

/-- The length of the longest run of a character, when a run of the given length is going on. -/
def longestRun (c : Char) : Nat → List Char → Nat
  | run, [] => run
  | run, d :: rest => if d = c then longestRun c (run + 1) rest else max run (longestRun c 0 rest)

/-- Whether a text has a control character that only an escape can stand for. -/
def needsEscape (text : List Char) : Bool := text.any fun c => c ≠ '\n' && !isPlain c

/-- The style in which a text is written. -/
def Style.of (text : List Char) : Style :=
  let hasLineEnd := text.contains '\n'
  let closed := needsEscape text
  let free := !closed && !text.contains '\\'
  if free && !hasLineEnd && longestRun '"' 0 text = 0 then .basic
  else if !closed && !hasLineEnd && longestRun '\'' 0 text = 0 then .literal
  else if free && longestRun '"' 0 text ≤ 2 then .lines
  else if !closed && longestRun '\'' 0 text ≤ 2 then .literalLines
  else if hasLineEnd then .lines
  else .basic

/-- The characters that stand for one character other than a double quote. -/
def escape (c : Char) : List Char :=
  if c = '\x08' then ['\\', 'b']
  else if c = '\t' then ['\\', 't']
  else if c = '\n' then ['\\', 'n']
  else if c = '\x0c' then ['\\', 'f']
  else if c = '\r' then ['\\', 'r']
  else if c = '\\' then ['\\', '\\']
  else if isPlain c then [c]
  else ['\\', 'u', '0', '0'] ++
    [Nat.digitChar (c.toNat / 16), Nat.digitChar (c.toNat % 16)].map Char.toUpper

/-- The characters of a text between double quotes of which so many may stand side by side. After
`run` quotes the next one is escaped if they are as many as may. Line ends stand for themselves in a
text of several lines. -/
def escapeAll (severalLines : Bool) (mostQuotes : Nat) : Nat → List Char → List Char
  | _, [] => []
  | run, c :: rest =>
    if c = '"' then
      if run < mostQuotes then c :: escapeAll severalLines mostQuotes (run + 1) rest
      else '\\' :: c :: escapeAll severalLines mostQuotes 0 rest
    else if c = '\n' ∧ severalLines then c :: escapeAll severalLines mostQuotes 0 rest
    else escape c ++ escapeAll severalLines mostQuotes 0 rest

/-- A text between quotes. In a text of several lines a line end stands behind the opening quotes. -/
def quoted (text : String) : String :=
  let chars := text.toList
  let start := if chars.contains '\n' then ['\n'] else []
  String.ofList <| match Style.of chars with
    | .basic => '"' :: (escapeAll false 0 0 chars ++ ['"'])
    | .literal => '\'' :: (chars ++ ['\''])
    | .lines => ['"', '"', '"'] ++ start ++ escapeAll true 2 0 chars ++ ['"', '"', '"']
    | .literalLines => ['\'', '\'', '\''] ++ start ++ chars ++ ['\'', '\'', '\'']

/-- The greatest integer that can be written. -/
def greatestInteger : Nat := Nat.pow 2 63 - 1

/-- A line that gives a key a text. -/
def textLine (key value : String) : String := s!"{key} = {quoted value}\n"

/-- A line that gives a key a count, unless it is too large to be written. -/
def countLine? (key : String) (value : Nat) : Option String :=
  if value ≤ greatestInteger then some s!"{key} = {value}\n" else none

end KnowledgeGraph.Toml
