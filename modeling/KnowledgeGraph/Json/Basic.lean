import KnowledgeGraph.Binary64
import KnowledgeGraph.Dict

/-!
# JSON values

The values that JSON text denotes. An object keeps its members in a list: data read from text has
them in increasing key order, and a document built for printing in the order in which it is written.
-/

namespace KnowledgeGraph

/-- A number of a JSON document. -/
inductive Number where
  /-- An integer, from `-2 ^ 63` up to `2 ^ 64 - 1` when it comes from text. -/
  | integer (value : Int)
  /-- Any other number, rounded to a double. -/
  | double (value : Binary64)
  deriving DecidableEq, Inhabited

/-- A JSON value. -/
inductive Json where
  /-- The value `null`. -/
  | null
  /-- A truth value. -/
  | bool (value : Bool)
  /-- A number. -/
  | number (value : Number)
  /-- A text. -/
  | string (value : String)
  /-- A list of values. -/
  | array (items : List Json)
  /-- A list of named values. -/
  | object (members : List (String × Json))
  deriving Inhabited

namespace Json

mutual

/-- Equality of values is decided part by part. -/
def decideEq : (left right : Json) → Decidable (left = right)
  | .null, .null => .isTrue rfl
  | .bool a, .bool b => decidable_of_iff (a = b) ⟨congrArg _, Json.bool.inj⟩
  | .number a, .number b => decidable_of_iff (a = b) ⟨congrArg _, Json.number.inj⟩
  | .string a, .string b => decidable_of_iff (a = b) ⟨congrArg _, Json.string.inj⟩
  | .array a, .array b => match decideItemsEq a b with
    | .isTrue h => .isTrue (congrArg _ h)
    | .isFalse h => .isFalse fun eq => h (Json.array.inj eq)
  | .object a, .object b => match decideMembersEq a b with
    | .isTrue h => .isTrue (congrArg _ h)
    | .isFalse h => .isFalse fun eq => h (Json.object.inj eq)
  | .null, .bool _ | .null, .number _ | .null, .string _ | .null, .array _ | .null, .object _
  | .bool _, .null | .bool _, .number _ | .bool _, .string _ | .bool _, .array _
  | .bool _, .object _ | .number _, .null | .number _, .bool _ | .number _, .string _
  | .number _, .array _ | .number _, .object _ | .string _, .null | .string _, .bool _
  | .string _, .number _ | .string _, .array _ | .string _, .object _ | .array _, .null
  | .array _, .bool _ | .array _, .number _ | .array _, .string _ | .array _, .object _
  | .object _, .null | .object _, .bool _ | .object _, .number _ | .object _, .string _
  | .object _, .array _ => .isFalse nofun

/-- Equality of two lists of items. -/
def decideItemsEq : (left right : List Json) → Decidable (left = right)
  | [], [] => .isTrue rfl
  | [], _ :: _ => .isFalse nofun
  | _ :: _, [] => .isFalse nofun
  | a :: as, b :: bs => match decideEq a b with
    | .isFalse h => .isFalse fun eq => h (List.cons.inj eq).1
    | .isTrue head => match decideItemsEq as bs with
      | .isTrue tail => .isTrue (head ▸ tail ▸ rfl)
      | .isFalse h => .isFalse fun eq => h (List.cons.inj eq).2

/-- Equality of two lists of members. -/
def decideMembersEq : (left right : List (String × Json)) → Decidable (left = right)
  | [], [] => .isTrue rfl
  | [], _ :: _ => .isFalse nofun
  | _ :: _, [] => .isFalse nofun
  | (k, a) :: as, (l, b) :: bs =>
    if key : k = l then
      match decideEq a b with
      | .isFalse h => .isFalse fun eq => h (Prod.mk.inj (List.cons.inj eq).1).2
      | .isTrue head => match decideMembersEq as bs with
        | .isTrue tail => .isTrue (key ▸ head ▸ tail ▸ rfl)
        | .isFalse h => .isFalse fun eq => h (List.cons.inj eq).2
    else .isFalse fun eq => key (Prod.mk.inj (List.cons.inj eq).1).1

end

instance : DecidableEq Json := decideEq

mutual

/-- Changes every part that is neither a list nor an object. -/
def mapLeaves (f : Json → Json) : Json → Json
  | .array items => .array (mapItems f items)
  | .object members => .object (mapMembers f members)
  | leaf => f leaf

/-- Changes the leaves of items. -/
def mapItems (f : Json → Json) : List Json → List Json
  | [] => []
  | item :: items => mapLeaves f item :: mapItems f items

/-- Changes the leaves of members. -/
def mapMembers (f : Json → Json) : List (String × Json) → List (String × Json)
  | [] => []
  | (key, value) :: members => (key, mapLeaves f value) :: mapMembers f members

end

mutual

/-- How many arrays and objects stand in one another in a value, where they go deepest. -/
def nesting : Json → Nat
  | .array items => itemsNesting items + 1
  | .object members => membersNesting members + 1
  | _ => 0

/-- How many stand in one another in items. -/
def itemsNesting : List Json → Nat
  | [] => 0
  | item :: items => max (nesting item) (itemsNesting items)

/-- How many stand in one another in members. -/
def membersNesting : List (String × Json) → Nat
  | [] => 0
  | (_, value) :: members => max (nesting value) (membersNesting members)

end

/-- The object of a dictionary, its members in key order. -/
def ofDict (members : Dict Json) : Json := .object members.entries

/-- A natural number as a value. -/
def nat (value : Nat) : Json := .number (.integer value)

/-- A list of texts as a value. -/
def strings (values : List String) : Json := .array (values.map .string)

/-- The value of a member of an object. -/
def member? (key : String) : Json → Option Json
  | .object members => Ascending.find? key members
  | _ => none

/-- The text of a text value. -/
def asString? : Json → Option String
  | .string value => some value
  | _ => none

/-- The truth value of a truth value. -/
def asBool? : Json → Option Bool
  | .bool value => some value
  | _ => none

/-- The items of a list. -/
def asArray? : Json → Option (List Json)
  | .array items => some items
  | _ => none

/-- The integer of an integer that is not negative. Doubles are refused even when they are whole. -/
def asNat? : Json → Option Nat
  | .number (.integer value) => if 0 ≤ value then some value.toNat else none
  | _ => none

end Json

end KnowledgeGraph
