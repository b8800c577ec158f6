import KnowledgeGraph.Outline.Key

/-!
# Outlines

An outline writes a graph as nested text: concepts, under each its relations, and under each relation
the concepts it leads to, which may have relations of their own. Its keys are in increasing order at
every level. In JSON both levels are objects, and a relation leads to a reference, a list or a further
outline.
-/

namespace KnowledgeGraph

/-- What stands under a relation key. -/
inductive Term where
  /-- A reference to one concept. -/
  | reference (text : String)
  /-- Several terms together. -/
  | several (terms : List Term)
  /-- Concepts by reference, each with its relation keys and what stands under them. -/
  | nested (concepts : List (String × List (String × Term)))
  deriving Inhabited

/-- The relation keys of one concept and what stands under them. -/
abbrev Branches := List (String × Term)

/-- Concepts by reference, each with its relations. -/
abbrev Outline := List (String × Branches)

namespace Outline

mutual

/-- The term of a form, in which so many arrays and objects may stand in one another. -/
def termOfSource? (depth : Nat) : Json.Source → Option Term
  | .string text => text.map .reference
  | .array items => if depth = 0 then none else (termsOfSources? (depth - 1) items).map .several
  | .object members =>
    if depth = 0 then none
    else (conceptsOfMembers? (depth - 1) members).map fun concepts =>
      .nested (Dict.ofList concepts).entries
  | _ => none

/-- The terms of the items of an array. -/
def termsOfSources? (depth : Nat) : List Json.Source → Option (List Term)
  | [] => some []
  | item :: items => do some ((← termOfSource? depth item) :: (← termsOfSources? depth items))

/-- The concepts of the members of an object, in the order in which they are written. -/
def conceptsOfMembers? (depth : Nat) : List (Option String × Json.Source) →
    Option (List (String × Branches))
  | [] => some []
  | (reference, .object members) :: rest => do
    let reference ← reference
    let branches ← if depth = 0 then none else branchesOfMembers? (depth - 1) members
    some ((reference, (Dict.ofList branches).entries) :: (← conceptsOfMembers? depth rest))
  | _ :: _ => none

/-- The relation keys of the members of an object, in the order in which they are written. -/
def branchesOfMembers? (depth : Nat) : List (Option String × Json.Source) → Option Branches
  | [] => some []
  | (key, value) :: rest => do
    some ((← key, ← termOfSource? depth value) :: (← branchesOfMembers? depth rest))

end

/-- The outline of a JSON text's form. Of a repeated key the last one stays, but what stands under
the others must be well-formed too. -/
def ofSource? : Json.Source → Option Outline
  | .object members =>
    (conceptsOfMembers? (Json.Source.greatestDepth - 1) members).map fun concepts =>
      (Dict.ofList concepts).entries
  | _ => none

/-- The outline that a JSON text holds. -/
def ofText (text : String) : Except Fault Outline :=
  match Json.readSource text >>= ofSource? with
  | some outline => .ok outline
  | none => .error .unreadable

mutual

/-- A term as a JSON value. -/
def termToJson : Term → Json
  | .reference text => .string text
  | .several terms => .array (termsToJson terms)
  | .nested concepts => .object (conceptsToJson concepts)

/-- Terms as JSON values. -/
def termsToJson : List Term → List Json
  | [] => []
  | term :: terms => termToJson term :: termsToJson terms

/-- Concepts as the members of a JSON object. -/
def conceptsToJson : List (String × Branches) → List (String × Json)
  | [] => []
  | (reference, branches) :: rest =>
    (reference, .object (branchesToJson branches)) :: conceptsToJson rest

/-- Relation keys as the members of a JSON object. -/
def branchesToJson : Branches → List (String × Json)
  | [] => []
  | (key, term) :: rest => (key, termToJson term) :: branchesToJson rest

end

/-- An outline as a JSON value. -/
def toJson (outline : Outline) : Json := .object (conceptsToJson outline)

end Outline

end KnowledgeGraph
