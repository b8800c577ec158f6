import KnowledgeGraph.Graph.Substitution
import KnowledgeGraph.Matching.Result
import KnowledgeGraph.Rule.Basic

/-!
# Grounding a rule

A match of a rule's hypothesis says by its links which data concept each hypothesis concept stands
for. In the conclusion these data concepts take the places of the placeholders and then of the
unknowns that the hypothesis shares with it.
-/

namespace KnowledgeGraph.Rule

/-- The data concept that a hypothesis concept stands for in a match: the end of its first link. -/
def resolved (matched : Graph) (id : String) : Except Fault Concept :=
  match (matched.targetsOf id Matching.matchesType).head? with
  | none => .error (.malformedRule (.unbound id))
  | some target => matched.requireConcept target

/-- Puts data concepts in the places of placeholders, as far as these occur. -/
def replacePlaceholders (matched : Graph) : Graph → List (String × String) → Except Fault Graph
  | g, [] => .ok g
  | g, (source, placeholder) :: rest => do
    let concept ← resolved matched source
    let g ← if g.hasConcept placeholder then (g.substitute placeholder concept).toExcept else .ok g
    replacePlaceholders matched g rest

/-- Puts data concepts in the places of unknowns. -/
def replaceUnknowns (matched : Graph) : Graph → List String → Except Fault Graph
  | g, [] => .ok g
  | g, id :: rest => do
    let concept ← resolved matched id
    let g ← (g.substitute id concept).toExcept
    replaceUnknowns matched g rest

/-- The conclusion of a rule for a match of its hypothesis. -/
def ground (rule : Rule) (matched : Graph) : Except Fault Graph := do
  let g ← replacePlaceholders matched rule.conclusion rule.becomes
  replaceUnknowns matched g (rule.hypothesis.unknownIds.filter g.hasConcept)

end KnowledgeGraph.Rule
