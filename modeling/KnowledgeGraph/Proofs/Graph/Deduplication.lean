import KnowledgeGraph.Proofs.Graph.Reachable
import KnowledgeGraph.Proofs.Graph.Saying

/-!
# Relations under the ids of their triples

A triple is looked for under its own id and under the ids in the index, and is found there whenever some
relation says it. As long as relations are added by their triples only, each stands under the id of its
triple: one that is rewired moves to the id of its new triple, where it becomes one with a relation that
says the same. So no two relations say one triple.
-/

namespace KnowledgeGraph

/-- A relation that has the id of its triple has the id of its new triple when a concept is replaced. -/
theorem Relation.id_rewire {relation : Relation} (h : relation.triple.id = relation.id)
    (old new : String) : (relation.rewire old new).triple.id = (relation.rewire old new).id := by
  have hnamed : relation.isNamed = false := decide_eq_false (not_not_intro h.symm)
  simp only [rewire, hnamed, Bool.false_eq_true, if_false]

namespace Graph

variable {g g' : Graph} {relation : Relation} {relations : List Relation} {triple : Triple}
  {id : String}

/-- Every relation stands under the id of its triple. -/
def StandsByTriple (g : Graph) : Prop :=
  ∀ id relation, g.relations.get? id = some relation → relation.triple.id = id

namespace StandsByTriple

/-- The empty graph has no relations. -/
theorem empty : Graph.empty.StandsByTriple := nofun

/-- Fewer relations stand where they stood. -/
theorem of_sub (h : g.StandsByTriple)
    (hr : ∀ id relation, g'.relations.get? id = some relation → g.relations.get? id = some relation) :
    g'.StandsByTriple :=
  fun id relation hg => h id relation (hr id relation hg)

/-- Relations that have the ids of their triples are added under these. -/
theorem addRelations (h : g.StandsByTriple)
    (hr : ∀ relation ∈ relations, relation.triple.id = relation.id) :
    (g.addRelations relations).graph.StandsByTriple := by
  intro id stored hs
  rcases get?_addRelations_cases hs with ⟨before, hb, ht⟩ | ⟨relation, hm, hi, ht⟩
  · rw [← ht]
    exact h id before hb
  · rw [← ht, hr relation hm]
    exact hi

/-- The relation of a triple that no relation says is added under the id of the triple. -/
theorem addTripleIfAbsent {created : Bool} (h : g.StandsByTriple)
    (ha : g.addTripleIfAbsent triple = .ok (created, g')) : g'.StandsByTriple := by
  rcases addTripleIfAbsent_eq_ok ha with ⟨-, rfl⟩ | ⟨-, hadd⟩
  · exact h
  · have hall : (g.addRelations [.ofTriple triple]).toExcept = .ok g' :=
      addRelations_cons_eq_ok.mpr ⟨g', hadd, rfl⟩
    rw [← (toExcept_eq_ok.mp hall).2]
    exact h.addRelations (List.forall_mem_singleton.mpr rfl)

/-- Relations that are left where one was removed stand where they stood. -/
theorem removeRelation (h : g.StandsByTriple) (name : String) :
    (g.removeRelation name).2.StandsByTriple := by
  refine h.of_sub fun id relation hg => ?_
  rw [get?_removeRelation] at hg
  split at hg
  next => cases hg
  next => exact hg

/-- Relations that are left where a concept was removed stand where they stood. -/
theorem removeConcept {removed : Concept} (h : g.StandsByTriple)
    (hr : g.removeConcept id = .ok (removed, g')) : g'.StandsByTriple := by
  rw [removeConcept_eq_ok hr]
  refine h.of_sub fun key relation hg => ?_
  rw [Dict.get?_filter, Option.filter_eq_some_iff] at hg
  exact hg.1

/-- Relations that touch a replaced concept move to the ids of their new triples. -/
theorem substitute (h : g.StandsByTriple) (hw : g.WellFormed) (placeholder : String)
    (replacement : Concept) : (g.substitute placeholder replacement).graph.StandsByTriple := by
  unfold Graph.substitute
  split
  next => exact h
  next =>
    split
    next => exact h
    next =>
      simp only
      split
      next => exact h
      next =>
        have hstay : (g.vacated placeholder replacement).StandsByTriple :=
          h.of_sub fun id relation hg => (hw.get?_vacated.mp hg).1
        refine hstay.addRelations (List.forall_mem_map.mpr fun relation hr => ?_)
        have hg := hw.mem_relationList.mp (List.mem_of_mem_filter hr)
        exact Relation.id_rewire (h relation.id relation hg) placeholder replacement.id

/-- No two relations say the same triple. -/
theorem nodup_triples (h : g.StandsByTriple) (hw : g.WellFormed) :
    (g.relationList.map (·.triple)).Nodup := by
  have hids : (g.relationList.map (·.triple)).map Triple.id = g.relationList.map (·.id) := by
    rw [List.map_map]
    exact List.map_congr_left fun relation hr => h relation.id relation (hw.mem_relationList.mp hr)
  refine List.Nodup.of_map Triple.id ?_
  rw [hids]
  exact hw.nodup_relationIds

end StandsByTriple

/-- Whether an operation adds concepts, adds a triple unless it is said, removes something or puts one
concept in the place of another. -/
def Operation.addsByTriple : Operation → Bool
  | .addConcept _ | .addConceptIfAbsent _ _ | .addFresh _ _ | .addTripleIfAbsent _
  | .removeRelation _ | .removeConcept _ | .substitute _ _ => true
  | .addRelation _ | .part _ | .definition _ | .definitionOf _ _ => false

/-- What a run of operations leaves, of which any may be refused. -/
def performAll (g : Graph) (operations : List Operation) : Graph :=
  operations.foldl (fun g operation => (g.perform operation).graph) g

/-- A run of operations leaves a well-formed graph. -/
theorem WellFormed.performAll (h : g.WellFormed) (operations : List Operation) :
    (g.performAll operations).WellFormed := by
  induction operations generalizing g with
  | nil => exact h
  | cons operation rest ih => exact ih (h.perform operation)

/-- What a refused operation leaves has its relations where they stood. -/
theorem StandsByTriple.orUnchanged {result : Except Fault Graph} (h : g.StandsByTriple)
    (hr : ∀ changed, result = .ok changed → changed.StandsByTriple) :
    (g.orUnchanged result).graph.StandsByTriple := by
  cases result with
  | ok changed => exact hr changed rfl
  | error fault => exact h

/-- An operation that adds relations by their triples at most leaves each under the id of its triple, also
where it is refused. -/
theorem StandsByTriple.perform {operation : Operation} (h : g.StandsByTriple) (hw : g.WellFormed)
    (ho : operation.addsByTriple = true) : (g.perform operation).graph.StandsByTriple := by
  cases operation with
  | addConcept concept => exact h
  | addConceptIfAbsent id concept =>
    refine h.of_sub fun key relation hg => ?_
    simp only [Graph.perform, Graph.addConceptIfAbsent] at hg
    split at hg
    next => exact hg
    next => exact hg
  | addFresh ids description => exact h
  | addTripleIfAbsent triple =>
    refine h.orUnchanged fun changed ha => ?_
    obtain ⟨⟨created, g'⟩, hadd, rfl⟩ := exists_of_map_eq_ok ha
    exact h.addTripleIfAbsent hadd
  | removeRelation id => exact h.removeRelation id
  | removeConcept id =>
    refine h.orUnchanged fun changed hr => ?_
    obtain ⟨⟨removed, g'⟩, hremove, rfl⟩ := exists_of_map_eq_ok hr
    exact h.removeConcept hremove
  | substitute placeholder replacement => exact h.substitute hw placeholder replacement
  | addRelation relation => cases ho
  | part ids => cases ho
  | definition type => cases ho
  | definitionOf root type => cases ho

/-- A run of such operations leaves each relation under the id of its triple. -/
theorem StandsByTriple.performAll {operations : List Operation} (h : g.StandsByTriple)
    (hw : g.WellFormed) (ho : ∀ operation ∈ operations, operation.addsByTriple = true) :
    (g.performAll operations).StandsByTriple := by
  induction operations generalizing g with
  | nil => exact h
  | cons operation rest ih =>
    obtain ⟨hfirst, hrest⟩ := List.forall_mem_cons.mp ho
    exact ih (h.perform hw hfirst) (hw.perform operation) hrest

/-- In every graph that is reached a triple is found just when a relation says it, under whatever id. And
a run from the empty graph that adds relations by their triples at most leaves no two that say the same
triple. -/
theorem finds_and_deduplicates :
    (∀ g, Reachable g → ∀ triple, g.hasTriple triple = true ↔
      ∃ id relation, g.relations.get? id = some relation ∧ relation.triple = triple) ∧
    ∀ operations : List Operation, (∀ operation ∈ operations, operation.addsByTriple = true) →
      ((empty.performAll operations).relationList.map (·.triple)).Nodup := by
  refine ⟨fun g hg triple => ?_, fun operations ho => ?_⟩
  · rw [hg.wellFormed.hasTriple_iff]
    exact says_iff
  · have hw := wellFormed_empty.performAll operations
    exact (StandsByTriple.empty.performAll wellFormed_empty ho).nodup_triples hw

/-- Ann is a friend of Tom's, once by a name of its own and once by its triple. -/
def twiceFriends : GraphRecord where
  concepts := [.known "ann", .known "tom"]
  relations := [{ id := "since school", triple := ⟨"ann", "friend of", "tom"⟩ },
    .ofTriple ⟨"ann", "friend of", "tom"⟩]

/-- Ann owns Tom and a cat, and the cat is Tom; the second time that she is said to own him changes
nothing, and a dog that she does not have cannot be replaced. -/
def catIsTom : List Operation :=
  [.addConcept (.known "ann"), .addConcept (.known "tom"), .addConceptIfAbsent "cat" (.known "animal"),
    .addTripleIfAbsent ⟨"ann", "owns", "tom"⟩, .addTripleIfAbsent ⟨"ann", "owns", "cat"⟩,
    .addTripleIfAbsent ⟨"cat", "likes", "ann"⟩, .substitute "cat" (.known "tom"),
    .addTripleIfAbsent ⟨"ann", "owns", "tom"⟩, .substitute "dog" (.known "tom")]

/-- What is left of the record when the relation with the id of the triple is removed is found by its
name, and the two that the cat and Tom had become one. -/
theorem finds_and_deduplicates_of_friends :
    (∃ g, twiceFriends.toGraph = .ok g ∧
      (g.removeRelation "ann-friend of->tom").2.hasTriple ⟨"ann", "friend of", "tom"⟩ = true) ∧
    (empty.performAll catIsTom).relationList.map (·.triple) =
      [⟨"ann", "owns", "tom"⟩, ⟨"tom", "likes", "ann"⟩] ∧
    ((empty.performAll catIsTom).relationList.map (·.triple)).Nodup := by
  have hold : (twiceFriends.toGraph.toOption.map fun g =>
      ((g.removeRelation "ann-friend of->tom").2.relation? "since school").map (·.triple)) =
        some (some ⟨"ann", "friend of", "tom"⟩) := by decide +kernel
  obtain ⟨finds, deduplicates⟩ := finds_and_deduplicates
  refine ⟨?_, by decide +kernel, deduplicates catIsTom (by decide)⟩
  obtain ⟨g, hg, hsaid⟩ := Option.map_eq_some_iff.mp hold
  obtain ⟨relation, hr, ht⟩ := Option.map_eq_some_iff.mp hsaid
  have hread := eq_ok_of_toOption hg
  exact ⟨g, hread, (finds _ (.perform (.removeRelation _) (.ofRecord hread)) _).mpr
    ⟨"since school", relation, hr, ht⟩⟩

end Graph

end KnowledgeGraph
