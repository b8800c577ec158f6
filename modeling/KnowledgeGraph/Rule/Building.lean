import KnowledgeGraph.FreshId
import KnowledgeGraph.Rule.Basic

/-!
# Putting rules together

A rule graph is the union of its parts with a root above them and the replacement relations between
them. It is taken apart once to see that it is a rule.
-/

namespace KnowledgeGraph

/-- What a rule is put together from. -/
structure RuleDraft where
  /-- The name, which becomes the root; a fresh id when there is none. -/
  name : Option String := none
  /-- The pattern that must be matched. -/
  hypothesis : Graph := .empty
  /-- The placeholders. -/
  mapping : Graph := .empty
  /-- The graph that follows from a match. -/
  conclusion : Graph := .empty
  /-- Hypothesis concepts and the placeholders that they replace. -/
  becomes : List (String × String) := []

namespace RuleDraft

/-- The graph of a part. -/
def part (draft : RuleDraft) : RulePart → Graph
  | .hypothesis => draft.hypothesis
  | .mapping => draft.mapping
  | .conclusion => draft.conclusion

/-- Adds triples between concepts of the graph, each unless some relation says it. -/
def addTriples : Graph → List Triple → Except Fault Graph
  | g, [] => .ok g
  | g, triple :: rest => do
    let (_, g) ← g.addTripleIfAbsent triple
    addTriples g rest

/-- The parts in one graph. -/
def union (draft : RuleDraft) : Except Fault Graph := do
  let g ← (Graph.empty.merge draft.hypothesis).toExcept
  let g ← (g.merge draft.mapping).toExcept
  (g.merge draft.conclusion).toExcept

/-- The triples from the root to the concepts of the parts. -/
def membership (draft : RuleDraft) (root : String) : List Triple :=
  RulePart.all.flatMap fun part =>
    (draft.part part).concepts.keys.map fun id => ⟨root, part.type, id⟩

/-- The triples that say the replacements. -/
def replacements (draft : RuleDraft) : List Triple :=
  draft.becomes.map fun pair => ⟨pair.1, Rule.becomesType, pair.2⟩

/-- Completes the united parts to a rule with a root. -/
def complete (draft : RuleDraft) (root : String) (united : Graph) : Except Fault Graph := do
  let g ← addTriples (united.addConcept (.known root)) (draft.membership root)
  let g ← addTriples g draft.replacements
  discard <| Rule.ofGraph g
  .ok g

/-- The rule graph of a draft. An unnamed rule takes its root from the source of ids, but not before
its parts are united. -/
def build (draft : RuleDraft) (ids : IdSource) : Except Fault Graph × IdSource :=
  match draft.union with
  | .error fault => (.error fault, ids)
  | .ok united =>
    match draft.name with
    | some name => (draft.complete name united, ids)
    | none =>
      let (root, ids) := ids.drawFree united
      (draft.complete root united, ids)

end RuleDraft

end KnowledgeGraph
