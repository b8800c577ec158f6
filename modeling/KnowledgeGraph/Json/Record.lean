import KnowledgeGraph.Json.Reader

/-!
# Records in JSON text

A record is written as an object of named fields or as a list of the fields in their order. In an
object the fields may come in any order, a field must not be repeated, and members that are no field
are skipped whatever they hold. In a list the last fields may be left out.
-/

namespace KnowledgeGraph.Json.Source

/-- The forms of the fields of a record in an object, in the order of the names. -/
def namedFields? (names : List String) (members : List (Option String × Source)) :
    Option (List (Option Source)) := do
  let keys ← members.mapM (·.1)
  let occurrences name := (keys.zip (members.map (·.2))).filter fun member => member.1 = name
  names.mapM fun name =>
    match occurrences name with
    | [] => some none
    | [member] => some (some member.2)
    | _ => none

/-- The forms of the fields of a record, in the order of their names; `none` for a field left
out. -/
def fields? (names : List String) : Source → Option (List (Option Source))
  | .object members => namedFields? names members
  | .array items =>
    if names.length < items.length then none
    else some (items.map some ++ List.replicate (names.length - items.length) none)
  | _ => none

/-- The text of a text. -/
def text? : Source → Option String
  | .string value => value
  | _ => none

/-- The truth value of a truth value. -/
def flag? : Source → Option Bool
  | .bool value => some value
  | _ => none

/-- The count of an integer that is not negative. -/
def count? : Source → Option Nat
  | .number (some (.integer value)) => if 0 ≤ value then some value.toNat else none
  | _ => none

/-- The forms of the items of a list. -/
def items? : Source → Option (List Source)
  | .array items => some items
  | _ => none

/-- The dictionary of an object whose parts all have values, at a depth. -/
def dict? (depth : Nat) (source : Source) : Option (Dict Json) := do
  match ← source.value? depth with
  | .object members => some (.ofList members)
  | _ => none

/-- Reads a field that may be left out. -/
def optional? {α : Type} (read : Source → Option α) (default : α) : Option Source → Option α
  | none => some default
  | some source => read source

end KnowledgeGraph.Json.Source
