import KnowledgeGraph.Json.Basic

/-!
# Writing JSON text

A value is written in one of two layouts: compact, or indented by two spaces a level with one item
or member on a line. Both write members in the order of the value and the same escapes: the quote,
the backslash and the control characters, all other characters standing for themselves.
-/

namespace KnowledgeGraph.Json

/-- How the parts of a written value are set apart. -/
inductive Layout where
  /-- Nothing between the parts. -/
  | compact
  /-- Every item and member on a line of its own, two spaces deeper than its container. -/
  | indented
  deriving DecidableEq

namespace Layout

/-- What stands before an item, a member or a closing bracket at a level. -/
def lineBreak : Layout → Nat → List Char
  | .compact, _ => []
  | .indented, level => '\n' :: List.replicate (2 * level) ' '

/-- What stands between a member's key and its value. -/
def colon : Layout → List Char
  | .compact => [':']
  | .indented => [':', ' ']

end Layout

/-- The characters that stand for one character between quotes. -/
def escape (c : Char) : List Char :=
  if c = '"' then ['\\', '"']
  else if c = '\\' then ['\\', '\\']
  else if c = '\n' then ['\\', 'n']
  else if c = '\r' then ['\\', 'r']
  else if c = '\t' then ['\\', 't']
  else if c = '\x08' then ['\\', 'b']
  else if c = '\x0c' then ['\\', 'f']
  else if c.toNat < 32 then
    ['\\', 'u', '0', '0', Nat.digitChar (c.toNat / 16), Nat.digitChar (c.toNat % 16)]
  else [c]

/-- A text between quotes. -/
def quoted (text : String) : List Char := '"' :: (text.toList.flatMap escape ++ ['"'])

/-- The text of a number. -/
def numberText : Number → String
  | .integer value => toString value
  | .double value => value.text

mutual

/-- The characters of a value that stands at a level. -/
def render (layout : Layout) (level : Nat) : Json → List Char
  | .null => "null".toList
  | .bool true => "true".toList
  | .bool false => "false".toList
  | .number value => (numberText value).toList
  | .string value => quoted value
  | .array [] => ['[', ']']
  | .array (item :: items) =>
    '[' :: (layout.lineBreak (level + 1) ++ render layout (level + 1) item ++
      renderItems layout (level + 1) items ++ layout.lineBreak level ++ [']'])
  | .object [] => ['{', '}']
  | .object ((key, value) :: members) =>
    '{' :: (layout.lineBreak (level + 1) ++ quoted key ++ layout.colon ++
      render layout (level + 1) value ++ renderMembers layout (level + 1) members ++
      layout.lineBreak level ++ ['}'])

/-- The items of a list after the first, each after a comma. -/
def renderItems (layout : Layout) (level : Nat) : List Json → List Char
  | [] => []
  | item :: items =>
    ',' :: (layout.lineBreak level ++ render layout level item ++ renderItems layout level items)

/-- The members of an object after the first, each after a comma. -/
def renderMembers (layout : Layout) (level : Nat) : List (String × Json) → List Char
  | [] => []
  | (key, value) :: members =>
    ',' :: (layout.lineBreak level ++ quoted key ++ layout.colon ++ render layout level value ++
      renderMembers layout level members)

end

/-- The text of a value in a layout. -/
def textIn (layout : Layout) (value : Json) : String := String.ofList (render layout 0 value)

/-- The text of a value on one line. -/
def compact (value : Json) : String := textIn .compact value

/-- The text of a value on indented lines. -/
def pretty (value : Json) : String := textIn .indented value

end KnowledgeGraph.Json
