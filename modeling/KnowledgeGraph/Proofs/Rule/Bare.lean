import KnowledgeGraph.Proofs.Graph.Bare
import KnowledgeGraph.Rule.Chaining

/-!
# Bare memories

Searching, matching, grounding and chaining look at no description and no metadata either: a bare memory
has the same bindings and leads to the bare conclusions, or to the same fault.
-/

namespace KnowledgeGraph

namespace Matching

variable {query data g : Graph} {binding : Binding}

/-- A search finds the same bindings in bare data. -/
theorem findBindings_bare (limits : SearchLimits) (query data : Graph) :
    findBindings limits query.bare data.bare = findBindings limits query data := by
  have hproblem : Problem.ofGraphs query.bare data.bare = Problem.ofGraphs query data := by
    simp [Problem.ofGraphs, Function.comp_def]
  have hholds : ∀ problem : Problem, problem.knownTriplesHold data.bare =
      problem.knownTriplesHold data := by
    intro problem
    simp only [Problem.knownTriplesHold, Graph.hasTriple_bare]
  have hconcepts : data.bare.hasConcept = data.hasConcept := funext Graph.hasConcept_bare
  unfold findBindings
  simp only [hproblem, Graph.unknownIds_bare, hholds, hconcepts]

/-- Bare data concepts are taken into a bare match. -/
theorem addResolved_bare (concepts : List Concept) :
    addResolved data.bare binding g.bare (concepts.map Concept.bare) =
      (addResolved data binding g concepts).map Graph.bare := by
  induction concepts generalizing g with
  | nil => rfl
  | cons concept rest ih =>
    rw [List.map_cons, addResolved, addResolved, Concept.id_bare, Graph.requireConcept_bare]
    refine map_bind_of_forall fun resolved => ?_
    rw [Graph.addConcept_bare]
    exact ih

/-- The bare relations that a query asks for are taken from bare data. -/
theorem resolvedRelations_bare :
    resolvedRelations query.bare data.bare binding =
      (resolvedRelations query data binding).map Relation.bare := by
  unfold resolvedRelations
  rw [Graph.relationList_bare, List.flatMap_map, List.map_flatMap]
  refine List.flatMap_congr fun relation _ => ?_
  simp only [Relation.triple_bare, Graph.relationsAt_bare, List.filter_map]
  rfl

/-- What is missing in a bare match is added bare. -/
theorem addMissing_bare (relations : List Relation) :
    addMissing g.bare (relations.map Relation.bare) = (addMissing g relations).map Graph.bare := by
  induction relations generalizing g with
  | nil => rfl
  | cons relation rest ih =>
    rw [List.map_cons, addMissing, addMissing, Relation.triple_bare, Graph.hasTriple_bare]
    split
    · exact ih
    · rw [Graph.addRelation_bare]
      exact map_bind_of_forall fun _ => ih

/-- A bare match gets the same links. -/
theorem addLinks_bare (concepts : List Concept) :
    addLinks binding g.bare (concepts.map Concept.bare) =
      (addLinks binding g concepts).map Graph.bare := by
  induction concepts generalizing g with
  | nil => rfl
  | cons concept rest ih =>
    rw [List.map_cons, addLinks, addLinks, Concept.id_bare, Graph.addTripleIfAbsent_bare]
    exact map_bind_of_forall fun _ => ih

/-- A bare query is laid beside a bare match. -/
theorem addQuery_bare (query : Graph) :
    addQuery query.bare binding g.bare = (addQuery query binding g).map Graph.bare := by
  have hconcepts : ∀ (concepts : List Concept) (g : Graph),
      (concepts.map Concept.bare).foldl
        (fun g concept => (g.addConceptIfAbsent concept.id concept).2) g.bare =
      (concepts.foldl (fun g concept => (g.addConceptIfAbsent concept.id concept).2) g).bare := by
    intro concepts
    induction concepts with
    | nil => exact fun _ => rfl
    | cons concept rest ih =>
      intro g
      rw [List.map_cons, List.foldl_cons, List.foldl_cons, Concept.id_bare,
        Graph.addConceptIfAbsent_bare, ih]
  unfold addQuery
  simp only [Graph.conceptList_bare, Graph.relationList_bare]
  rw [hconcepts, addMissing_bare]
  exact map_bind_of_forall fun _ => addLinks_bare _

/-- A binding cuts the bare match out of bare data. -/
theorem materialize_bare (includeQuery : Bool) :
    materialize includeQuery query.bare data.bare binding =
      (materialize includeQuery query data binding).map Graph.bare := by
  unfold materialize
  have hcut := @addResolved_bare data .empty binding query.conceptList
  rw [Graph.bare_empty] at hcut
  rw [Graph.conceptList_bare, hcut]
  refine map_bind_of_forall fun cut => ?_
  rw [resolvedRelations_bare, Graph.addRelations_bare, Edited.toExcept_bare]
  refine map_bind_of_forall fun matched => ?_
  split
  · exact addQuery_bare query
  · rfl

end Matching

namespace Rule

variable {rule : Rule} {memory matched g : Graph} {limits : SearchLimits}

/-- The rule with bare parts. -/
def bare (rule : Rule) : Rule :=
  { rule with
    hypothesis := rule.hypothesis.bare
    mapping := rule.mapping.bare
    conclusion := rule.conclusion.bare }

/-- From a bare match the bare concept is read. -/
theorem resolved_bare (id : String) :
    resolved matched.bare id = (resolved matched id).map Concept.bare := by
  unfold resolved
  rw [Graph.targetsOf_bare]
  cases (matched.targetsOf id Matching.matchesType).head? with
  | none => rfl
  | some target => exact Graph.requireConcept_bare target

/-- Bare concepts take the places of placeholders in a bare graph. -/
theorem replacePlaceholders_bare (pairs : List (String × String)) :
    replacePlaceholders matched.bare g.bare pairs =
      (replacePlaceholders matched g pairs).map Graph.bare := by
  induction pairs generalizing g with
  | nil => rfl
  | cons pair rest ih =>
    obtain ⟨source, placeholder⟩ := pair
    rw [replacePlaceholders, replacePlaceholders, resolved_bare]
    refine map_bind_of_forall fun concept => ?_
    rw [Graph.hasConcept_bare, Graph.substitute_bare, Edited.toExcept_bare]
    split
    · exact map_bind_of_forall fun _ => ih
    · exact ih

/-- Bare concepts take the places of unknowns in a bare graph. -/
theorem replaceUnknowns_bare (ids : List String) :
    replaceUnknowns matched.bare g.bare ids = (replaceUnknowns matched g ids).map Graph.bare := by
  induction ids generalizing g with
  | nil => rfl
  | cons id rest ih =>
    rw [replaceUnknowns, replaceUnknowns, resolved_bare]
    refine map_bind_of_forall fun concept => ?_
    rw [Graph.substitute_bare, Edited.toExcept_bare]
    exact map_bind_of_forall fun _ => ih

/-- A bare match leads to the bare conclusion. -/
theorem ground_bare : rule.bare.ground matched.bare = (rule.ground matched).map Graph.bare := by
  unfold ground
  have hplaceholders := @replacePlaceholders_bare matched rule.conclusion rule.becomes
  change replacePlaceholders matched.bare rule.conclusion.bare rule.becomes >>= _ = _
  rw [hplaceholders]
  refine map_bind_of_forall fun replaced => ?_
  have hunknowns : rule.bare.hypothesis.unknownIds.filter replaced.bare.hasConcept =
      rule.hypothesis.unknownIds.filter replaced.hasConcept := by
    rw [funext (@Graph.hasConcept_bare replaced)]
    exact congrArg _ Graph.unknownIds_bare
  rw [hunknowns]
  exact replaceUnknowns_bare _

/-- A binding in a bare memory leads to the bare conclusion. -/
theorem conclude_bare (binding : Binding) :
    rule.bare.conclude memory.bare binding = (rule.conclude memory binding).map Graph.bare := by
  unfold conclude
  have hcut := @Matching.materialize_bare rule.hypothesis memory binding true
  change Matching.materialize true rule.hypothesis.bare memory.bare binding >>= _ = _
  rw [hcut]
  exact map_bind_of_forall fun _ => ground_bare

/-- A rule leads from a bare memory to the bare conclusions. -/
theorem applyAll_bare :
    rule.bare.applyAll limits memory.bare =
      (rule.applyAll limits memory).map (List.map Graph.bare) := by
  have hbindings : rule.bare.sortedBindings limits memory.bare = rule.sortedBindings limits memory := by
    unfold sortedBindings
    change (Matching.findBindings limits rule.hypothesis.bare memory.bare >>= _) = _
    rw [Matching.findBindings_bare]
  have hconclusions : ∀ bindings : List Binding, bindings.mapM (rule.bare.conclude memory.bare) =
      (bindings.mapM (rule.conclude memory)).map (List.map Graph.bare) := by
    intro bindings
    induction bindings with
    | nil => rfl
    | cons binding rest ih =>
      rw [List.mapM_cons, List.mapM_cons, conclude_bare, ih]
      exact map_bind_of_forall fun _ => map_bind_of_forall fun _ => rfl
  unfold applyAll
  rw [hbindings]
  cases rule.sortedBindings limits memory with
  | error fault => rfl
  | ok bindings => exact hconclusions bindings

end Rule

namespace Chaining

variable {limits : SearchLimits} {memory derived : Graph}

/-- Bare graphs are merged to the bare result. -/
theorem mergeAll_bare (others : List Graph) :
    mergeAll derived.bare (others.map Graph.bare) = (mergeAll derived others).map Graph.bare := by
  induction others generalizing derived with
  | nil => rfl
  | cons other rest ih =>
    rw [List.map_cons, mergeAll, mergeAll, Graph.merge_bare, Edited.toExcept_bare]
    exact map_bind_of_forall fun _ => ih

/-- What follows from a bare memory is bare, and follows from as many matches. -/
theorem derive_bare (firings : Nat) (rules : List Rule) :
    derive limits memory.bare derived.bare firings (rules.map Rule.bare) =
      (derive limits memory derived firings rules).map fun result => (result.1.bare, result.2) := by
  induction rules generalizing derived firings with
  | nil => rfl
  | cons rule rest ih =>
    rw [List.map_cons, derive, derive, Rule.applyAll_bare]
    refine map_bind_of_forall fun conclusions => ?_
    rw [mergeAll_bare, List.length_map]
    exact map_bind_of_forall fun _ => ih _

end Chaining

end KnowledgeGraph
