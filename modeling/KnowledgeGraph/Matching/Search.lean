import KnowledgeGraph.Matching.Facts

/-!
# Searching for embeddings

A query is a graph whose unknown concepts are its variables. Known concepts of the query stand for the
data concepts of the same id, and every unknown is bound to a known data concept of its own, so that
the data has a relation for each relation of the query. Unknowns are bound in id order and candidates
are tried in id order, which lists the bindings in the order of the bound ids. The search stops when
enough bindings are found, and gives up when it has tried as many candidates as it may.
-/

namespace KnowledgeGraph

/-- What the unknowns of a query are bound to. -/
abbrev Binding := Dict String

namespace Binding

/-- The data concept that a query concept stands for: what it is bound to, or itself. -/
def resolve (binding : Binding) (id : String) : String := (binding.get? id).getD id

/-- The triple of the data that a triple of the query asks for. -/
def resolveTriple (binding : Binding) (triple : Triple) : Triple :=
  { triple with source := binding.resolve triple.source, target := binding.resolve triple.target }

/-- Whether one list of entries comes no later than another, entry by entry and key before value. -/
def entriesLe : List (String × String) → List (String × String) → Bool
  | [], _ => true
  | _ :: _, [] => false
  | (k, a) :: as, (l, b) :: bs =>
    if k ≠ l then decide (k < l)
    else if a ≠ b then decide (a < b)
    else entriesLe as bs

/-- Whether one binding comes no later than another. -/
def le (first second : Binding) : Bool := entriesLe first.entries second.entries

end Binding

namespace Matching

/-- What a search looks at: parts of the query and of the data. -/
structure Problem where
  /-- The ids of the known query concepts. -/
  known : List String
  /-- The triples of the query. -/
  demands : List Triple
  /-- The data concepts to which unknowns may be bound, in order. -/
  pool : List String
  /-- The triples of the data. -/
  facts : Facts

/-- How far a search has come. -/
structure Progress where
  /-- How many candidates may still be tried. -/
  stepsLeft : Nat
  /-- How many bindings are still wanted. -/
  wanted : Nat
  /-- The bindings found, the latest first. -/
  found : List Binding

namespace Progress

/-- Counts a complete binding. -/
def record (progress : Progress) (binding : Binding) : Progress :=
  { progress with wanted := progress.wanted - 1, found := binding :: progress.found }

end Progress

namespace Problem

/-- The data concept that an end of a demand stands for while an unknown is tried with a candidate;
`none` for an unknown that is still free. -/
def endpoint? (problem : Problem) (binding : Binding) (unknown candidate id : String) :
    Option String :=
  if id = unknown then some candidate
  else if problem.known.contains id then some id
  else binding.get? id

/-- Whether some fact has a type and the ends that are known. -/
def supports (problem : Problem) (type : String) : Option String → Option String → Bool
  | some source, some target => problem.facts.holds ⟨source, type, target⟩
  | some source, none => problem.facts.leaves source type
  | none, some target => problem.facts.enters type target
  | none, none => true

/-- Whether a candidate fits an unknown: each demand on it is met, as far as its other end
is known. -/
def fits (problem : Problem) (binding : Binding) (unknown candidate : String) : Bool :=
  problem.demands.all fun demand =>
    if demand.source = unknown || demand.target = unknown then
      problem.supports demand.type
        (problem.endpoint? binding unknown candidate demand.source)
        (problem.endpoint? binding unknown candidate demand.target)
    else true

/-- Tries candidates for an unknown in order, each that is not in use and fits with what is to be
done next; `none` when the candidates that may be tried are used up. -/
def tryEach (problem : Problem) (unknown : String) (binding : Binding)
    (next : Binding → Progress → Option Progress) : List String → Progress → Option Progress
  | [], progress => some progress
  | candidate :: rest, progress =>
    if progress.wanted = 0 then some progress
    else if binding.values.contains candidate then
      tryEach problem unknown binding next rest progress
    else
      match progress.stepsLeft with
      | 0 => none
      | left + 1 =>
        let progress := { progress with stepsLeft := left }
        if problem.fits binding unknown candidate then
          match next (binding.insert unknown candidate) progress with
          | some progress => tryEach problem unknown binding next rest progress
          | none => none
        else tryEach problem unknown binding next rest progress

/-- Extends a binding to the variables of a list in every way. -/
def extend (problem : Problem) : List String → Binding → Progress → Option Progress
  | [], binding, progress => some (progress.record binding)
  | unknown :: rest, binding, progress =>
    problem.tryEach unknown binding (problem.extend rest) problem.pool progress

/-- The problem of embedding a query into data. -/
def ofGraphs (query data : Graph) : Problem :=
  let known := query.knownIds
  { known
    demands := query.relationList.map (·.triple)
    pool := data.knownIds.filter fun id => !known.contains id
    facts := .ofTriples (data.relationList.map (·.triple)) }

/-- Whether the data says every triple of the query between known concepts. -/
def knownTriplesHold (problem : Problem) (data : Graph) : Bool :=
  problem.demands.all fun demand =>
    if problem.known.contains demand.source && problem.known.contains demand.target then
      data.hasTriple demand
    else true

end Problem

/-- The bindings of a query's unknowns that embed it into data, in order and up to the limits. -/
def findBindings (limits : SearchLimits) (query data : Graph) : Except Fault (List Binding) := do
  let unknowns := query.unknownIds
  let problem := Problem.ofGraphs query data
  (limits.check).mapError .violation
  (limits.checkUnknowns unknowns.length).mapError .violation
  if !problem.known.all data.hasConcept then .ok []
  else if !problem.knownTriplesHold data then .ok []
  else if problem.pool.length < unknowns.length then .ok []
  else if unknowns.isEmpty then .ok [.empty]
  else
    match problem.extend unknowns .empty ⟨limits.maxSteps, limits.maxResults, []⟩ with
    | some progress => .ok progress.found.reverse
    | none => .error (.searchBudgetExceeded limits.maxSteps)

end Matching

end KnowledgeGraph
