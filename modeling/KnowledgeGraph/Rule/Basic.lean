import KnowledgeGraph.Graph.Part
import KnowledgeGraph.Graph.Record

/-!
# Rules as graphs

A rule is kept as a graph. From its root, relations of three types lead to the concepts of its
hypothesis, of its mapping and of its conclusion, and a replacement relation leads from a hypothesis
concept to the placeholder that it replaces in the conclusion. A conclusion may hold a rule in turn,
whose root is then not taken for that of the whole.
-/

namespace KnowledgeGraph

/-- The three parts of a rule, to whose concepts the root has relations. -/
inductive RulePart where
  /-- The pattern that must be matched. -/
  | hypothesis
  /-- The placeholders. -/
  | mapping
  /-- The graph that follows from a match. -/
  | conclusion
  deriving DecidableEq

/-- The type of the relations from a rule's root to the concepts of a part. -/
def RulePart.type : RulePart → String
  | .hypothesis => "has_hypothesis"
  | .mapping => "has_mapping"
  | .conclusion => "has_conclusion"

/-- The parts in the order in which a rule is put together. -/
def RulePart.all : List RulePart := [.hypothesis, .mapping, .conclusion]

/-- A rule taken apart. -/
structure Rule where
  /-- The id of the root, which names the rule. -/
  root : String
  /-- The pattern that must be matched, without replacement relations. -/
  hypothesis : Graph
  /-- The placeholders. -/
  mapping : Graph
  /-- The graph that follows from a match, with placeholders in it. -/
  conclusion : Graph
  /-- Hypothesis concepts and the placeholders that they replace. -/
  becomes : List (String × String)
  deriving DecidableEq

namespace Rule

/-- The type of the relation from a hypothesis concept to the placeholder it replaces. -/
def becomesType : String := "becomes"

/-- The concepts with a hypothesis that are in no conclusion, in order. -/
def roots (g : Graph) : List String :=
  let concluded := (g.relationsOfType RulePart.conclusion.type).map (·.triple.target)
  let sources := (g.relationsOfType RulePart.hypothesis.type).map (·.triple.source)
  Dict.sortedKeys (sources.filter fun source => !concluded.contains source)

/-- The one root of a rule. -/
def root? (g : Graph) : Except RuleFault String :=
  match roots g with
  | [root] => .ok root
  | [] => .error .noRoot
  | several => .error (.severalRoots several)

/-- The replacements that relations say, in order. Relations within the conclusion belong to a rule in
it and say none; any other starts at a concept of the hypothesis. -/
def replacements (root : String) (hypothesis conclusion : Graph) :
    List Relation → Except RuleFault (List (String × String))
  | [] => .ok []
  | relation :: rest =>
    let triple := relation.triple
    if conclusion.hasConcept triple.source && conclusion.hasConcept triple.target then
      replacements root hypothesis conclusion rest
    else if !hypothesis.hasConcept triple.source then .error (.straySource triple.source root)
    else do .ok ((triple.source, triple.target) :: (← replacements root hypothesis conclusion rest))

/-- Takes a rule apart, or says why the graph is none. -/
def split (g : Graph) : Except RuleFault Rule := do
  let root ← root? g
  if (g.targetsOf root RulePart.conclusion.type).isEmpty then .error (.noConclusion root)
  else
    let pattern := g.definitionOf root RulePart.hypothesis.type
    let hypothesis := (pattern.relationsOfType becomesType).foldl
      (fun pattern relation => (pattern.removeRelation relation.id).2) pattern
    let mapping := g.definitionOf root RulePart.mapping.type
    let conclusion := g.definitionOf root RulePart.conclusion.type
    let becomes ← replacements root hypothesis conclusion (g.relationsOfType becomesType)
    .ok { root, hypothesis, mapping, conclusion, becomes }

/-- The rule that a graph is. -/
def ofGraph (g : Graph) : Except Fault Rule := (split g).mapError .malformedRule

end Rule

end KnowledgeGraph
