import KnowledgeGraph.Proofs.Graph.Merging

/-!
# Bare graphs

A graph without what is told of its concepts and relations, their descriptions and metadata, keeps their
ids, which concepts are unknown, and what the relations say. No operation on graphs looks at more: each
leads from the bare graph to the bare result, or to the same fault.
-/

namespace KnowledgeGraph

/-- The concept without description and metadata. -/
def Concept.bare (concept : Concept) : Concept := { concept with description := "", metadata := .empty }

/-- The relation without metadata. -/
def Relation.bare (relation : Relation) : Relation := { relation with metadata := .empty }

/-- The graph without descriptions and metadata. -/
def Graph.bare (g : Graph) : Graph :=
  { g with concepts := g.concepts.map Concept.bare, relations := g.relations.map Relation.bare }

/-- The same for a graph that an operation left behind. -/
def Edited.bare (edited : Edited) : Edited := { edited with graph := edited.graph.bare }

/-- A bare concept keeps its id. -/
@[simp] theorem Concept.id_bare (concept : Concept) : concept.bare.id = concept.id := rfl

/-- A bare concept is unknown when the concept is. -/
@[simp] theorem Concept.isUnknown_bare (concept : Concept) :
    concept.bare.isUnknown = concept.isUnknown := rfl

/-- A bare concept laid over another one is the bare overlay. -/
@[simp] theorem Concept.overlay_bare (concept other : Concept) :
    concept.bare.overlay other.bare = (concept.overlay other).bare := rfl

/-- A bare relation keeps its id. -/
@[simp] theorem Relation.id_bare (relation : Relation) : relation.bare.id = relation.id := rfl

/-- A bare relation keeps what it says. -/
@[simp] theorem Relation.triple_bare (relation : Relation) :
    relation.bare.triple = relation.triple := rfl

/-- A bare relation is named when the relation is. -/
@[simp] theorem Relation.isNamed_bare (relation : Relation) :
    relation.bare.isNamed = relation.isNamed := rfl

/-- A bare relation touches the concepts that the relation touches. -/
@[simp] theorem Relation.touches_bare (relation : Relation) (concept : String) (side : Direction) :
    relation.bare.touches concept side = relation.touches concept side := by
  cases side <;> rfl

/-- A bare relation is rewired to the bare rewired relation. -/
@[simp] theorem Relation.rewire_bare (relation : Relation) (old new : String) :
    relation.bare.rewire old new = (relation.rewire old new).bare := rfl

/-- A bare relation has nothing to add to another one. -/
@[simp] theorem Relation.annotate_bare (relation other : Relation) :
    relation.bare.annotate other.bare.metadata = (relation.annotate other.metadata).bare := rfl

/-- The relation of a triple is bare. -/
@[simp] theorem Relation.bare_ofTriple (triple : Triple) :
    (Relation.ofTriple triple).bare = .ofTriple triple := rfl

/-- A fault stays when the graph is bare. -/
theorem Edited.toExcept_bare (edited : Edited) :
    edited.bare.toExcept = edited.toExcept.map Graph.bare := by
  obtain ⟨graph, fault⟩ := edited
  cases fault <;> rfl

namespace Graph

variable {g : Graph} {concept : Concept} {relation : Relation}

/-- The empty graph is bare. -/
@[simp] theorem bare_empty : Graph.empty.bare = .empty := rfl

/-- Under an id of the bare graph stands the bare concept. -/
@[simp] theorem concept?_bare (id : String) : g.bare.concept? id = (g.concept? id).map Concept.bare :=
  Dict.get?_map ..

/-- Under an id of the bare graph stands the bare relation. -/
@[simp] theorem relation?_bare (id : String) :
    g.bare.relation? id = (g.relation? id).map Relation.bare :=
  Dict.get?_map ..

/-- The bare graph has the concepts of the graph. -/
@[simp] theorem hasConcept_bare (id : String) : g.bare.hasConcept id = g.hasConcept id :=
  Dict.contains_map ..

/-- The bare graph lists the bare concepts. -/
@[simp] theorem conceptList_bare : g.bare.conceptList = g.conceptList.map Concept.bare :=
  Dict.values_map ..

/-- The bare graph lists the bare relations. -/
@[simp] theorem relationList_bare : g.bare.relationList = g.relationList.map Relation.bare :=
  Dict.values_map ..

/-- The same concepts are known in the bare graph. -/
@[simp] theorem knownIds_bare : g.bare.knownIds = g.knownIds := by
  simp [knownIds, List.filter_map, Function.comp_def]

/-- The same concepts are unknown in the bare graph. -/
@[simp] theorem unknownIds_bare : g.bare.unknownIds = g.unknownIds := by
  simp [unknownIds, List.filter_map, Function.comp_def]

/-- At a concept of the bare graph stand the bare relations. -/
@[simp] theorem relationsAt_bare (id : String) (side : Direction) :
    g.bare.relationsAt id side = (g.relationsAt id side).map Relation.bare := by
  simp [relationsAt, List.filter_map, Function.comp_def]

/-- The relations of a type lead to the same targets in the bare graph. -/
@[simp] theorem targetsOf_bare (root type : String) :
    g.bare.targetsOf root type = g.targetsOf root type := by
  rw [targetsOf, relationsAt_bare, List.filter_map, List.map_map]
  rfl

/-- The bare graph finds a triple when the graph does. -/
@[simp] theorem hasTriple_bare (triple : Triple) : g.bare.hasTriple triple = g.hasTriple triple := by
  simp only [hasTriple, relation?_bare, Option.any_map]
  rfl

/-- A concept that is required of the bare graph is bare. -/
theorem requireConcept_bare (id : String) :
    g.bare.requireConcept id = (g.requireConcept id).map Concept.bare := by
  unfold requireConcept
  rw [concept?_bare]
  cases g.concept? id <;> rfl

/-- Concepts are added to the bare graph bare. -/
theorem addConcept_bare : g.bare.addConcept concept.bare = (g.addConcept concept).bare := by
  have hmerged : (g.addConcept concept).concepts.map Concept.bare =
      (g.bare.addConcept concept.bare).concepts := by
    unfold addConcept
    simp only [Concept.id_bare, concept?_bare]
    cases g.concept? concept.id <;> exact Dict.map_insert ..
  exact (congrArg (fun concepts => ({ g.bare with concepts } : Graph)) hmerged).symm

/-- Concepts are added to the bare graph bare, one after the other. -/
theorem addConcepts_bare (concepts : List Concept) :
    g.bare.addConcepts (concepts.map Concept.bare) = (g.addConcepts concepts).bare := by
  induction concepts generalizing g with
  | nil => rfl
  | cons head rest ih =>
    simp only [addConcepts, List.map_cons, List.foldl_cons] at ih ⊢
    rw [addConcept_bare, ih]

/-- A concept is absent from the bare graph when it is from the graph. -/
theorem addConceptIfAbsent_bare (id : String) :
    (g.bare.addConceptIfAbsent id concept.bare).2 = (g.addConceptIfAbsent id concept).2.bare := by
  unfold addConceptIfAbsent
  rw [hasConcept_bare]
  split
  · rfl
  · have hinserted := Dict.map_insert Concept.bare g.concepts id { concept with id }
    exact (congrArg (fun concepts => ({ g.bare with concepts } : Graph)) hinserted).symm

/-- Relations are added to the bare graph bare. -/
theorem addRelation_bare :
    g.bare.addRelation relation.bare = (g.addRelation relation).map Graph.bare := by
  unfold addRelation
  have hends : ∀ id, discard (g.bare.requireConcept id) = discard (g.requireConcept id) := by
    intro id
    rw [requireConcept_bare]
    cases g.requireConcept id <;> rfl
  rw [Relation.triple_bare, hends, hends, Relation.id_bare, relation?_bare]
  cases discard (g.requireConcept relation.triple.source) with
  | error fault => rfl
  | ok =>
    cases discard (g.requireConcept relation.triple.target) with
    | error fault => rfl
    | ok =>
      cases hr : g.relation? relation.id with
      | none =>
        refine congrArg Except.ok ?_
        rw [putRelation, putRelation, bare, bare, Dict.map_insert]
        rfl
      | some existing =>
        have hextended := Dict.map_insert Relation.bare g.relations relation.id
          (existing.annotate relation.metadata)
        simp only [Option.map_some, bind, Except.bind]
        by_cases same : existing.triple = relation.triple
        · have same' : existing.bare.triple = relation.triple := same
          rw [if_pos same, if_pos same', Relation.annotate_bare]
          exact congrArg (fun relations => Except.ok ({ g.bare with relations } : Graph))
            hextended.symm
        · have same' : ¬existing.bare.triple = relation.triple := same
          rw [if_neg same, if_neg same']
          rfl

/-- A triple is added to the bare graph when it is added to the graph. -/
theorem addTripleIfAbsent_bare (triple : Triple) :
    g.bare.addTripleIfAbsent triple =
      (g.addTripleIfAbsent triple).map fun added => (added.1, added.2.bare) := by
  unfold addTripleIfAbsent
  have hends : ∀ id, discard (g.bare.requireConcept id) = discard (g.requireConcept id) := by
    intro id
    rw [requireConcept_bare]
    cases g.requireConcept id <;> rfl
  rw [hends, hends, hasTriple_bare, ← Relation.bare_ofTriple, addRelation_bare, Relation.bare_ofTriple]
  cases discard (g.requireConcept triple.source) with
  | error fault => rfl
  | ok =>
    cases discard (g.requireConcept triple.target) with
    | error fault => rfl
    | ok =>
      simp only [bind, Except.bind]
      split
      · rfl
      · cases g.addRelation (.ofTriple triple) <;> rfl

/-- Relations are added to the bare graph bare, up to the same fault. -/
theorem addRelations_bare (relations : List Relation) :
    g.bare.addRelations (relations.map Relation.bare) = (g.addRelations relations).bare := by
  induction relations generalizing g with
  | nil => rfl
  | cons head rest ih =>
    rw [List.map_cons, addRelations, addRelations, addRelation_bare]
    cases g.addRelation head with
    | error fault => rfl
    | ok next => exact ih

/-- Bare graphs are merged to the bare result, up to the same fault. -/
theorem merge_bare (other : Graph) : g.bare.merge other.bare = (g.merge other).bare := by
  rw [merge, merge, conceptList_bare, relationList_bare, addConcepts_bare, addRelations_bare]

/-- Relations are removed from the bare graph like from the graph. -/
theorem removeRelations_bare (ids : List String) :
    g.bare.removeRelations ids = (g.removeRelations ids).bare := by
  induction ids generalizing g with
  | nil => rfl
  | cons id rest ih =>
    have hremoved : (g.bare.removeRelation id).2 = (g.removeRelation id).2.bare := by
      rw [removeRelation, removeRelation, bare, bare, Dict.map_erase]
    simp only [removeRelations, List.foldl_cons] at ih ⊢
    rw [hremoved, ih]

/-- The relation whose id stands for two triples is the same in the bare graph. -/
theorem clash?_bare (leaving : List String) (staged rewired : List Relation) :
    g.bare.clash? leaving (staged.map Relation.bare) (rewired.map Relation.bare) =
      (g.clash? leaving staged rewired).map Relation.bare := by
  induction rewired generalizing staged with
  | nil => rfl
  | cons relation rest ih =>
    have hearlier : (staged.map Relation.bare).find? (fun other => other.id = relation.id) =
        (staged.find? fun other => other.id = relation.id).map Relation.bare := by
      rw [List.find?_map]
      rfl
    have hstays : ((g.relation? relation.id).map Relation.bare).filter (fun other =>
        !leaving.contains other.id) =
        ((g.relation? relation.id).filter fun other => !leaving.contains other.id).map Relation.bare := by
      rw [Option.filter_map]
      rfl
    have htaken : (((staged.map Relation.bare).find? fun other => other.id = relation.id).or
        (((g.relation? relation.id).map Relation.bare).filter fun other =>
          !leaving.contains other.id)).any (fun other => decide (other.triple ≠ relation.triple)) =
        ((staged.find? fun other => other.id = relation.id).or
          ((g.relation? relation.id).filter fun other => !leaving.contains other.id)).any
            (fun other => decide (other.triple ≠ relation.triple)) := by
      rw [hearlier, hstays, ← Option.map_or, Option.any_map]
      rfl
    rw [List.map_cons, clash?, clash?, Relation.id_bare, relation?_bare]
    change (if (((staged.map Relation.bare).find? fun other => other.id = relation.id).or
      (((g.relation? relation.id).map Relation.bare).filter fun other =>
        !leaving.contains other.id)).any (fun other => decide (other.triple ≠ relation.triple)) then
      some relation.bare
      else g.bare.clash? leaving ((relation :: staged).map Relation.bare) (rest.map Relation.bare)) = _
    rw [htaken, ih]
    split <;> rfl

/-- A concept takes the place of another one in the bare graph as in the graph. -/
theorem substitute_bare (placeholder : String) :
    g.bare.substitute placeholder concept.bare = (g.substitute placeholder concept).bare := by
  unfold substitute
  have hids : ((g.relationsAt placeholder .both).map Relation.bare).map (·.id) =
      (g.relationsAt placeholder .both).map (·.id) := by
    rw [List.map_map]
    rfl
  have hrewired : ((g.relationsAt placeholder .both).map Relation.bare).map
      (·.rewire placeholder concept.id) =
      ((g.relationsAt placeholder .both).map (·.rewire placeholder concept.id)).map Relation.bare := by
    rw [List.map_map, List.map_map]
    rfl
  simp only [hasConcept_bare, Concept.id_bare, relationsAt_bare, hids, hrewired]
  split
  · rfl
  · split
    · rw [addConcept_bare]
      rfl
    · have hclash := @clash?_bare g ((g.relationsAt placeholder .both).map (·.id)) []
        ((g.relationsAt placeholder .both).map (·.rewire placeholder concept.id))
      rw [List.map_nil] at hclash
      rw [hclash]
      cases g.clash? ((g.relationsAt placeholder .both).map (·.id)) []
          ((g.relationsAt placeholder .both).map (·.rewire placeholder concept.id)) with
      | some relation => rfl
      | none =>
        have hcleared : { g.bare with concepts := g.bare.concepts.erase placeholder } =
            Graph.bare { g with concepts := g.concepts.erase placeholder } := by
          simp only [bare, Dict.map_erase]
        simp only [Option.map_none]
        rw [hcleared, addConcept_bare, removeRelations_bare, addRelations_bare]

/-- A bare graph says what the graph says. -/
theorem says_bare {triple : Triple} : g.bare.Says triple ↔ g.Says triple := by
  simp only [Says, relationList_bare, List.mem_map, exists_exists_and_eq_and, Relation.triple_bare]

/-- A bare graph is well-formed if the graph is. -/
theorem WellFormed.bare (h : g.WellFormed) : g.bare.WellFormed where
  concept_id := by
    intro id concept hg
    rw [Graph.bare, Dict.get?_map, Option.map_eq_some_iff] at hg
    obtain ⟨full, hfull, rfl⟩ := hg
    exact h.concept_id id full hfull
  relation_id := by
    intro id relation hg
    rw [Graph.bare, Dict.get?_map, Option.map_eq_some_iff] at hg
    obtain ⟨full, hfull, rfl⟩ := hg
    exact h.relation_id id full hfull
  source_mem := by
    intro id relation hg
    rw [Graph.bare, Dict.get?_map, Option.map_eq_some_iff] at hg
    obtain ⟨full, hfull, rfl⟩ := hg
    rw [Graph.bare, Dict.contains_map]
    exact h.source_mem id full hfull
  target_mem := by
    intro id relation hg
    rw [Graph.bare, Dict.get?_map, Option.map_eq_some_iff] at hg
    obtain ⟨full, hfull, rfl⟩ := hg
    rw [Graph.bare, Dict.contains_map]
    exact h.target_mem id full hfull
  named_iff := by
    intro id
    refine (h.named_iff id).trans ?_
    simp only [Graph.bare, Dict.get?_map, Option.map_eq_some_iff, exists_exists_and_eq_and,
      Relation.isNamed_bare]

section Congruence

variable {grown : Graph} (h : g.WellFormed) (h' : grown.WellFormed)

include h h'

/-- Graphs that have the same concepts and know the same of them have the same bare concepts. -/
theorem WellFormed.bare_concepts_eq
    (hids : ∀ id, g.concepts.contains id = true ↔ grown.concepts.contains id = true)
    (hk : grown.knownIds = g.knownIds) : grown.bare.concepts = g.bare.concepts := by
  ext id : 1
  rw [Graph.bare, Graph.bare, Dict.get?_map, Dict.get?_map]
  cases hold : g.concepts.get? id with
  | none =>
    have habsent : ¬grown.concepts.contains id = true := fun hin =>
      Dict.get?_eq_none.mp hold ((hids id).mpr hin)
    rw [Dict.get?_eq_none.mpr habsent]
  | some concept =>
    obtain ⟨kept, hkept⟩ := Dict.contains_iff.mp ((hids id).mp (Dict.contains_of_get? hold))
    have hflag : kept.isUnknown = false ↔ concept.isUnknown = false := by
      have hsame : id ∈ grown.knownIds ↔ id ∈ g.knownIds := by rw [hk]
      rw [h'.mem_knownIds, h.mem_knownIds, hkept, hold] at hsame
      simpa using hsame
    have hmark : kept.isUnknown = concept.isUnknown := by
      revert hflag
      cases kept.isUnknown <;> cases concept.isUnknown <;> simp
    have hid := (h'.concept_id id kept hkept).trans (h.concept_id id concept hold).symm
    rw [hkept, Option.map_some, Option.map_some, Concept.bare, Concept.bare, hid, hmark]

/-- Graphs that have relations with the same triples under the same ids have the same bare
relations. -/
theorem WellFormed.bare_relations_eq
    (hids : ∀ id, grown.relations.contains id = true → g.relations.contains id = true)
    (hkeeps : ∀ id relation, g.relations.get? id = some relation →
      ∃ kept, grown.relations.get? id = some kept ∧ kept.triple = relation.triple) :
    grown.bare.relations = g.bare.relations := by
  ext id : 1
  rw [Graph.bare, Graph.bare, Dict.get?_map, Dict.get?_map]
  cases hold : g.relations.get? id with
  | none =>
    have habsent : ¬grown.relations.contains id = true := fun hin =>
      Dict.get?_eq_none.mp hold (hids id hin)
    rw [Dict.get?_eq_none.mpr habsent]
  | some relation =>
    obtain ⟨kept, hkept, htriple⟩ := hkeeps id relation hold
    have hid := (h'.relation_id id kept hkept).trans (h.relation_id id relation hold).symm
    rw [hkept, Option.map_some, Option.map_some, Relation.bare, Relation.bare, hid, htriple]

end Congruence

/-- A merging that adds no concept and no relation, and after which the same concepts are known, leaves
the bare graph as it is. -/
theorem WellFormed.bare_merge {other grown : Graph} (h : g.WellFormed)
    (hm : g.merge other = ⟨grown, none⟩) (hc : grown.concepts.size = g.concepts.size)
    (hr : grown.relations.size = g.relations.size) (hk : grown.knownIds = g.knownIds) :
    grown.bare = g.bare := by
  have hgrown : grown.WellFormed := by
    have hmerged := h.merge other
    rwa [hm] at hmerged
  have hkeeps : ∀ id relation, g.relations.get? id = some relation →
      ∃ kept, grown.relations.get? id = some kept ∧ kept.triple = relation.triple :=
    fun id relation => get?_merge_left (by rw [hm]; rfl)
  -- Merging only adds, so that equal numbers leave no room for anything else.
  have hconcepts : ∀ id, g.concepts.contains id = true → grown.concepts.contains id = true := by
    intro id hid
    have hin : (g.merge other).graph.hasConcept id = true := by
      rw [hasConcept, Graph.merge, addRelations_concepts, ← hasConcept, hasConcept_addConcepts]
      exact .inr hid
    rwa [hm] at hin
  have hrelations : ∀ id, g.relations.contains id = true → grown.relations.contains id = true := by
    intro id hid
    obtain ⟨relation, hrelation⟩ := Dict.contains_iff.mp hid
    obtain ⟨kept, hkept, -⟩ := hkeeps id relation hrelation
    exact Dict.contains_of_get? hkept
  refine hgrown.bare.eq_of_parts h.bare ?_ ?_
  · exact h.bare_concepts_eq hgrown
      (fun id => ⟨hconcepts id, Dict.contains_of_size_eq hconcepts hc⟩) hk
  · exact h.bare_relations_eq hgrown (fun _ => Dict.contains_of_size_eq hrelations hr) hkeeps

end Graph

end KnowledgeGraph
