import KnowledgeGraph.Rule.Grounding

/-!
# Applying and chaining rules

A rule is applied to a working memory by matching its hypothesis there and grounding its conclusion.
Chaining applies all rules to all matches round by round and adds what follows to the memory, until a
round adds no concept and no relation or the rounds are used up.
-/

namespace KnowledgeGraph.Rule

/-- The bindings of a rule's hypothesis in a memory, in increasing order. -/
def sortedBindings (limits : SearchLimits) (rule : Rule) (memory : Graph) :
    Except Fault (List Binding) := do
  let bindings ← Matching.findBindings limits rule.hypothesis memory
  .ok (bindings.mergeSort Binding.le)

/-- What follows from a binding of a rule's hypothesis. -/
def conclude (rule : Rule) (memory : Graph) (binding : Binding) : Except Fault Graph := do
  let matched ← Matching.materialize true rule.hypothesis memory binding
  rule.ground matched

/-- What follows from the first match of a rule; the empty graph when there is none. -/
def applyFirst (limits : SearchLimits) (rule : Rule) (memory : Graph) : Except Fault Graph := do
  match ← sortedBindings limits rule memory with
  | [] => .ok .empty
  | binding :: _ => rule.conclude memory binding

/-- What follows from each match of a rule, in order. -/
def applyAll (limits : SearchLimits) (rule : Rule) (memory : Graph) :
    Except Fault (List Graph) := do
  let bindings ← sortedBindings limits rule memory
  bindings.mapM (rule.conclude memory)

end KnowledgeGraph.Rule

namespace KnowledgeGraph.Chaining

/-- What a run of forward chaining did. -/
structure Report where
  /-- The number of rounds that were run. -/
  rounds : Nat := 0
  /-- The number of matches from which something was concluded. -/
  firings : Nat := 0
  /-- The number of concepts that were added. -/
  addedConcepts : Nat := 0
  /-- The number of relations that were added. -/
  addedRelations : Nat := 0
  /-- Whether the last round added nothing. -/
  reachedFixpoint : Bool := false
  deriving DecidableEq

/-- The report as a JSON object. -/
def Report.toJson (report : Report) : Json :=
  .object [("rounds", .nat report.rounds), ("firings", .nat report.firings),
    ("added_concepts", .nat report.addedConcepts),
    ("added_relations", .nat report.addedRelations),
    ("reached_fixpoint", .bool report.reachedFixpoint)]

/-- Adds graphs to a graph, one after the other, all or none. -/
def mergeAll : Graph → List Graph → Except Fault Graph
  | g, [] => .ok g
  | g, other :: rest => do mergeAll (← (g.merge other).toExcept) rest

/-- What follows from a memory by all rules in one graph, and from how many matches. -/
def derive (limits : SearchLimits) (memory : Graph) :
    Graph → Nat → List Rule → Except Fault (Graph × Nat)
  | derived, firings, [] => .ok (derived, firings)
  | derived, firings, rule :: rest => do
    let conclusions ← rule.applyAll limits memory
    let derived ← mergeAll derived conclusions
    derive limits memory derived (firings + conclusions.length) rest

/-- Runs so many rounds at most. The memory is returned as far as it was changed, also when a round
fails. -/
def runRounds (limits : SearchLimits) (rules : List Rule) :
    Nat → Report → Graph → Except Fault Report × Graph
  | 0, report, memory => (.ok report, memory)
  | rounds + 1, report, memory =>
    match derive limits memory .empty 0 rules with
    | .error fault => (.error fault, memory)
    | .ok (derived, firings) =>
      match memory.merge derived with
      | ⟨memory, some fault⟩ => (.error fault, memory)
      | ⟨grown, none⟩ =>
        let concepts := grown.concepts.size - memory.concepts.size
        let relations := grown.relations.size - memory.relations.size
        let unchanged := grown.concepts.size = memory.concepts.size ∧
          grown.relations.size = memory.relations.size
        let report : Report :=
          { rounds := report.rounds + 1
            firings := report.firings + firings
            addedConcepts := report.addedConcepts + concepts
            addedRelations := report.addedRelations + relations
            reachedFixpoint := decide unchanged }
        if unchanged then (.ok report, grown) else runRounds limits rules rounds report grown

/-- Chains rules over a memory for a number of rounds, which is checked first, then the rules are. -/
def run (limits : SearchLimits) (rules : List Graph) (memory : Graph) (maxRounds : Nat) :
    Except Fault Report × Graph :=
  match Limits.checkRounds maxRounds with
  | .error violation => (.error (.violation violation), memory)
  | .ok () =>
    match rules.mapM Rule.ofGraph with
    | .error fault => (.error fault, memory)
    | .ok rules => runRounds limits rules maxRounds {} memory

end KnowledgeGraph.Chaining
