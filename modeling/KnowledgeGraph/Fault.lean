import KnowledgeGraph.Limits

/-!
# Faults

Why an operation on graphs is refused. Each cause is a constructor with the parts that its text
names; the wording is in the `message` functions alone.
-/

namespace KnowledgeGraph

/-- Why a key or reference of the outline text is refused. -/
inductive OutlineFault where
  /-- A relation key has no arrow on either side. -/
  | keyShape (key : String)
  /-- A relation key has no type between its arrow ends. -/
  | emptyType (key : String)
  /-- A concept reference is a lone question mark. -/
  | bareMark (reference : String)
  deriving DecidableEq

/-- The cause in words. -/
def OutlineFault.message : OutlineFault → String
  | .keyShape key => s!"relation key must look like -type-> or <-type-, got '{key}'"
  | .emptyType key => s!"empty relation type in '{key}'"
  | .bareMark reference => s!"invalid concept reference '{reference}'"

/-- Why a graph is no rule, or why a rule cannot be grounded. -/
inductive RuleFault where
  /-- No concept outside the conclusions has a hypothesis. -/
  | noRoot
  /-- Several concepts outside the conclusions have a hypothesis. -/
  | severalRoots (roots : List String)
  /-- The root has no conclusion. -/
  | noConclusion (root : String)
  /-- A replacement starts at a concept that the hypothesis does not have. -/
  | straySource (source root : String)
  /-- The match does not say what a hypothesis concept was matched with. -/
  | unbound (id : String)
  deriving DecidableEq

/-- The cause in words. -/
def RuleFault.message : RuleFault → String
  | .noRoot => "no root concept with a has_hypothesis relation"
  | .severalRoots roots => "several rule roots: " ++ String.intercalate ", " roots
  | .noConclusion root => s!"rule {root} has no has_conclusion relation"
  | .straySource source root => s!"becomes source {source} is not part of the hypothesis of {root}"
  | .unbound id => s!"no binding recorded for {id}"

/-- Why an operation on graphs is refused. -/
inductive Fault where
  /-- A concept that must exist does not. -/
  | missingConcept (id : String)
  /-- A relation id stands for another triple already. -/
  | duplicateRelation (id : String)
  /-- A graph is no rule, or a rule cannot be grounded. -/
  | malformedRule (cause : RuleFault)
  /-- A key or reference of the outline text is malformed. -/
  | outline (cause : OutlineFault)
  /-- An input exceeds a limit. -/
  | violation (cause : Violation)
  /-- A search has tried as many candidates as it may. -/
  | searchBudgetExceeded (steps : Nat)
  /-- A text is no JSON, or JSON of another shape. -/
  | unreadable
  deriving DecidableEq

/-- The fault in words. Of unreadable text only the kind of fault is said. -/
def Fault.message : Fault → String
  | .missingConcept id => s!"Concept not found: {id}"
  | .duplicateRelation id => s!"Relation id already used by a different relation: {id}"
  | .malformedRule cause => "Malformed rule: " ++ cause.message
  | .outline cause => "Invalid notation: " ++ cause.message
  | .violation cause => "Validation error: " ++ cause.message
  | .searchBudgetExceeded steps => s!"Search budget exceeded after {steps} candidate checks"
  | .unreadable => "Serialization error"

end KnowledgeGraph
