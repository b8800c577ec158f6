import KnowledgeGraph.Json.Reader

/-!
# TOML values

The values that TOML text denotes. Tables keep their entries in increasing key order. Every value has
a counterpart among the forms of JSON text, so that a reader of records serves both kinds of text.
-/

namespace KnowledgeGraph.Toml

/-- A TOML value. -/
inductive Value where
  /-- A text. -/
  | string (text : String)
  /-- An integer of 64 bits with a sign. -/
  | integer (value : Int)
  /-- A float, without a value when it is infinite or not a number. -/
  | float (value : Option Binary64)
  /-- A truth value. -/
  | boolean (value : Bool)
  /-- A date, a time of day or both, as it is written. -/
  | moment (text : String)
  /-- A list of values. -/
  | array (items : List Value)
  /-- Named values. -/
  | table (entries : List (String × Value))
  deriving Inhabited

namespace Value

/-- The value under a key of a table. -/
def member? (key : String) : Value → Option Value
  | .table entries => Ascending.find? key entries
  | _ => none

/-- The text of a text. -/
def text? : Value → Option String
  | .string text => some text
  | _ => none

/-- The count of an integer that is not negative. -/
def count? : Value → Option Nat
  | .integer value => if 0 ≤ value then some value.toNat else none
  | _ => none

/-- Whether a list or a table has nothing in it. -/
def isHollow : Value → Bool
  | .array items => items.isEmpty
  | .table entries => entries.isEmpty
  | _ => false

mutual

/-- The form of JSON text that stands for a value. Moments have no counterpart and leave a hole. -/
def source : Value → Json.Source
  | .string text => .string (some text)
  | .integer value => .number (some (.integer value))
  | .float value => .number (value.map .double)
  | .boolean value => .bool value
  | .moment _ => .string none
  | .array items => .array (itemSources items)
  | .table entries => .object (entrySources entries)

/-- The forms of items. -/
def itemSources : List Value → List Json.Source
  | [] => []
  | item :: items => source item :: itemSources items

/-- The forms of entries. -/
def entrySources : List (String × Value) → List (Option String × Json.Source)
  | [] => []
  | (key, value) :: entries => (some key, source value) :: entrySources entries

end

end Value

end KnowledgeGraph.Toml
