import KnowledgeGraph.Graph.Part
import KnowledgeGraph.Graph.Substitution
import KnowledgeGraph.Proofs.Dict
import KnowledgeGraph.Proofs.Results

/-!
# Well-formed graphs

What each operation on a graph finds and changes, and that every operation keeps graphs well-formed:
concepts and relations stand under their own ids, relations lead between concepts of the graph, and
the index holds the named relations. Operations that stop half-way leave a well-formed graph behind as
well.
-/

namespace KnowledgeGraph

/-- A concept that is laid over itself stays what it is. -/
@[simp] theorem Concept.overlay_self (concept : Concept) : concept.overlay concept = concept := by
  simp [overlay]

/-- Laying a concept over another one a second time changes nothing. -/
@[simp] theorem Concept.overlay_overlay (concept other : Concept) :
    (concept.overlay other).overlay other = concept.overlay other := by
  simp [overlay]

namespace Graph

variable {g g' : Graph} {concept : Concept} {relation : Relation} {id : String}

/-- A graph has a concept when one stands under the id. -/
theorem hasConcept_iff : g.hasConcept id = true ↔ ∃ concept, g.concepts.get? id = some concept :=
  Dict.contains_iff

/-- A graph with anything in it has a concept. -/
theorem WellFormed.exists_hasConcept (h : g.WellFormed) (hsome : g.isEmpty = false) :
    ∃ id, g.hasConcept id = true := by
  rw [isEmpty, Bool.and_eq_false_iff] at hsome
  rcases hsome with hsome | hsome
  · obtain ⟨⟨id, concept⟩, hentry⟩ := List.isEmpty_eq_false_iff_exists_mem.mp hsome
    exact ⟨id, hasConcept_iff.mpr ⟨concept, Dict.mem_entries.mp hentry⟩⟩
  · obtain ⟨⟨id, relation⟩, hentry⟩ := List.isEmpty_eq_false_iff_exists_mem.mp hsome
    exact ⟨_, h.source_mem id relation (Dict.mem_entries.mp hentry)⟩

/-- A required concept is the one under the id. -/
theorem requireConcept_eq_ok : g.requireConcept id = .ok concept ↔ g.concepts.get? id = some concept := by
  unfold requireConcept concept?
  cases g.concepts.get? id <;> simp

/-- A concept that is required and absent is named by the fault. -/
theorem requireConcept_of_absent (h : ¬g.hasConcept id = true) :
    g.requireConcept id = .error (.missingConcept id) := by
  have hn : g.concepts.get? id = none := Dict.get?_eq_none.mpr h
  unfold requireConcept concept?
  rw [hn]

/-- A well-formed graph lists the concepts under their own ids. -/
theorem WellFormed.mem_conceptList (h : g.WellFormed) :
    concept ∈ g.conceptList ↔ g.concepts.get? concept.id = some concept := by
  rw [conceptList, Dict.mem_values]
  constructor
  · rintro ⟨key, hk⟩
    rwa [h.concept_id key concept hk]
  · intro hc
    exact ⟨concept.id, hc⟩

/-- A well-formed graph lists a concept with each id that it has. -/
theorem WellFormed.exists_mem_conceptList (h : g.WellFormed) :
    (∃ concept ∈ g.conceptList, concept.id = id) ↔ g.hasConcept id = true := by
  rw [hasConcept_iff]
  constructor
  · rintro ⟨concept, hc, rfl⟩
    exact ⟨concept, h.mem_conceptList.mp hc⟩
  · rintro ⟨concept, hg⟩
    exact ⟨concept, Dict.mem_values.mpr ⟨id, hg⟩, h.concept_id id concept hg⟩

/-- A well-formed graph lists the relations under their own ids. -/
theorem WellFormed.mem_relationList (h : g.WellFormed) :
    relation ∈ g.relationList ↔ g.relations.get? relation.id = some relation := by
  rw [relationList, Dict.mem_values]
  constructor
  · rintro ⟨key, hk⟩
    rwa [h.relation_id key relation hk]
  · intro hr
    exact ⟨relation.id, hr⟩

/-- The ids of a part of the concepts, in the order of the entries. -/
theorem WellFormed.map_id_filter (h : g.WellFormed) (p : Concept → Bool) :
    (g.conceptList.filter p).map (·.id) = (g.concepts.filter fun _ concept => p concept).keys := by
  have aligned : ∀ entries : List (String × Concept),
      (∀ entry ∈ entries, entry.2.id = entry.1) →
      ((entries.map (·.2)).filter p).map (·.id) = (entries.filter fun entry => p entry.2).map (·.1) := by
    intro entries he
    induction entries with
    | nil => rfl
    | cons entry rest ih =>
      have hi := he entry List.mem_cons_self
      have hr := ih fun other ho => he other (List.mem_cons_of_mem _ ho)
      by_cases hp : p entry.2 = true <;> simp [hp, hi, hr]
  exact aligned g.concepts.entries fun entry he =>
    h.concept_id entry.1 entry.2 (Dict.mem_entries.mp he)

/-- The known ids are those under which a known concept stands. -/
theorem WellFormed.mem_knownIds (h : g.WellFormed) :
    id ∈ g.knownIds ↔ ∃ concept, g.concepts.get? id = some concept ∧ concept.isUnknown = false := by
  rw [knownIds, h.map_id_filter, Dict.mem_keys, Dict.contains_iff]
  simp only [Dict.get?_filter, Option.filter_eq_some_iff, Bool.not_eq_true']

/-- The unknown ids are those under which an unknown concept stands. -/
theorem WellFormed.mem_unknownIds (h : g.WellFormed) :
    id ∈ g.unknownIds ↔ ∃ concept, g.concepts.get? id = some concept ∧ concept.isUnknown = true := by
  rw [unknownIds, h.map_id_filter, Dict.mem_keys, Dict.contains_iff]
  simp only [Dict.get?_filter, Option.filter_eq_some_iff]

/-- Known ids are listed in increasing order. -/
theorem WellFormed.knownIds_ascending (h : g.WellFormed) : g.knownIds.Pairwise (· < ·) := by
  rw [knownIds, h.map_id_filter]
  exact Dict.keys_ascending _

/-- Unknown ids are listed in increasing order. -/
theorem WellFormed.unknownIds_ascending (h : g.WellFormed) : g.unknownIds.Pairwise (· < ·) := by
  rw [unknownIds, h.map_id_filter]
  exact Dict.keys_ascending _

/-- No id is known and unknown. -/
theorem WellFormed.not_mem_unknownIds (h : g.WellFormed) (hk : id ∈ g.knownIds) :
    id ∉ g.unknownIds := by
  intro hu
  obtain ⟨known, hg, hf⟩ := h.mem_knownIds.mp hk
  obtain ⟨unknown, hg', ht⟩ := h.mem_unknownIds.mp hu
  rw [hg, Option.some.injEq] at hg'
  rw [← hg', hf] at ht
  exact Bool.false_ne_true ht

/-- Every concept is known or unknown. -/
theorem WellFormed.mem_knownIds_or (h : g.WellFormed) (hc : g.hasConcept id = true) :
    id ∈ g.knownIds ∨ id ∈ g.unknownIds := by
  obtain ⟨concept, hg⟩ := hasConcept_iff.mp hc
  rw [h.mem_knownIds, h.mem_unknownIds]
  cases hu : concept.isUnknown with
  | false => exact .inl ⟨concept, hg, hu⟩
  | true => exact .inr ⟨concept, hg, hu⟩

/-- A triple is found, under its id or by the index, when some relation says it. -/
theorem WellFormed.hasTriple_iff (h : g.WellFormed) {triple : Triple} :
    g.hasTriple triple = true ↔ ∃ relation ∈ g.relationList, relation.triple = triple := by
  simp only [hasTriple, relation?, Bool.or_eq_true, Option.any_eq_true, decide_eq_true_eq,
    List.any_eq_true]
  constructor
  · rintro (⟨relation, hr, ht⟩ | ⟨name, -, relation, hr, ht⟩)
    · exact ⟨relation, Dict.mem_values.mpr ⟨_, hr⟩, ht⟩
    · exact ⟨relation, Dict.mem_values.mpr ⟨_, hr⟩, ht⟩
  · rintro ⟨relation, hr, rfl⟩
    have hg := h.mem_relationList.mp hr
    by_cases hn : relation.id = relation.triple.id
    · exact .inl ⟨relation, hn ▸ hg, rfl⟩
    · have hm : g.named.contains relation.id = true :=
        (h.named_iff relation.id).mpr ⟨relation, hg, decide_eq_true hn⟩
      exact .inr ⟨relation.id, Dict.mem_keys.mpr hm, relation, hg, rfl⟩

/-- What stands under a concept's id once the concept is added. -/
def laidOver (g : Graph) (concept : Concept) : Concept :=
  match g.concept? concept.id with
  | some existing => existing.overlay concept
  | none => concept

/-- Adding a concept changes what stands under its id. -/
theorem get?_addConcept : (g.addConcept concept).concepts.get? id =
    if concept.id = id then some (g.laidOver concept) else g.concepts.get? id := by
  rw [addConcept, Dict.get?_insert]
  rfl

/-- Adding a concept leaves the relations. -/
@[simp] theorem addConcept_relations : (g.addConcept concept).relations = g.relations := rfl

/-- Adding a concept makes its id present. -/
@[simp] theorem hasConcept_addConcept :
    (g.addConcept concept).hasConcept id = true ↔ concept.id = id ∨ g.hasConcept id = true :=
  Dict.contains_insert

/-- Adding concepts leaves the relations. -/
@[simp] theorem addConcepts_relations (concepts : List Concept) :
    (g.addConcepts concepts).relations = g.relations := by
  induction concepts generalizing g with
  | nil => rfl
  | cons concept rest ih =>
    rw [addConcepts, List.foldl_cons, ← addConcepts, ih, addConcept_relations]

/-- Adding concepts makes their ids present. -/
theorem hasConcept_addConcepts {concepts : List Concept} :
    (g.addConcepts concepts).hasConcept id = true ↔
      (∃ concept ∈ concepts, concept.id = id) ∨ g.hasConcept id = true := by
  induction concepts generalizing g with
  | nil => simp [addConcepts]
  | cons concept rest ih =>
    rw [addConcepts, List.foldl_cons, ← addConcepts, ih, hasConcept_addConcept,
      List.exists_mem_cons_iff, or_left_comm, or_assoc]

/-- What is laid over a concept of a well-formed graph keeps its id. -/
theorem WellFormed.laidOver_id (h : g.WellFormed) (concept : Concept) :
    (g.laidOver concept).id = concept.id := by
  unfold laidOver concept?
  cases hg : g.concepts.get? concept.id with
  | none => rfl
  | some existing => exact h.concept_id _ existing hg

/-- The empty graph is well-formed. -/
theorem wellFormed_empty : Graph.empty.WellFormed :=
  ⟨nofun, nofun, nofun, nofun, fun _ => ⟨nofun, nofun⟩⟩

/-- A concept may stand under its id whatever stood there before. -/
theorem WellFormed.insertConcept (h : g.WellFormed) (hi : concept.id = id) :
    { g with concepts := g.concepts.insert id concept }.WellFormed where
  concept_id := by
    intro key other hg
    rw [Dict.get?_insert] at hg
    split at hg
    next same =>
      cases hg
      exact hi.trans same
    next => exact h.concept_id key other hg
  relation_id := h.relation_id
  source_mem key relation hg := Dict.contains_insert.mpr (.inr (h.source_mem key relation hg))
  target_mem key relation hg := Dict.contains_insert.mpr (.inr (h.target_mem key relation hg))
  named_iff := h.named_iff

/-- Adding a concept keeps a graph well-formed. -/
theorem WellFormed.addConcept (h : g.WellFormed) (concept : Concept) :
    (g.addConcept concept).WellFormed :=
  h.insertConcept (h.laidOver_id concept)

/-- Adding concepts keeps a graph well-formed. -/
theorem WellFormed.addConcepts (h : g.WellFormed) (concepts : List Concept) :
    (g.addConcepts concepts).WellFormed := by
  induction concepts generalizing g with
  | nil => exact h
  | cons concept rest ih => exact ih (h.addConcept concept)

/-- Adding a concept that is absent keeps a graph well-formed. -/
theorem WellFormed.addConceptIfAbsent (h : g.WellFormed) (id : String) (concept : Concept) :
    (g.addConceptIfAbsent id concept).2.WellFormed := by
  unfold Graph.addConceptIfAbsent
  split
  · exact h
  · exact h.insertConcept rfl

/-- A relation is entered under its id. -/
@[simp] theorem get?_putRelation : (g.putRelation relation).relations.get? id =
    if relation.id = id then some relation else g.relations.get? id :=
  Dict.get?_insert ..

/-- A relation between concepts of the graph is entered, laid over its equal, or refused. -/
theorem addRelation_of_ends (hs : g.hasConcept relation.triple.source = true)
    (ht : g.hasConcept relation.triple.target = true) :
    g.addRelation relation =
      match g.relations.get? relation.id with
      | none => .ok (g.putRelation relation)
      | some existing =>
        if existing.triple = relation.triple then
          .ok { g with relations :=
            g.relations.insert relation.id (existing.annotate relation.metadata) }
        else .error (.duplicateRelation relation.id) := by
  obtain ⟨source, hs⟩ := hasConcept_iff.mp hs
  obtain ⟨target, ht⟩ := hasConcept_iff.mp ht
  have hs' := requireConcept_eq_ok.mpr hs
  have ht' := requireConcept_eq_ok.mpr ht
  unfold addRelation relation?
  rw [hs', ht']
  rfl

/-- What requires two concepts and succeeds finds both. -/
theorem ends_of_require {α : Type} {source target : String} {rest : Except Fault α} {result : α}
    (h : (do
      discard <| g.requireConcept source
      discard <| g.requireConcept target
      rest) = .ok result) : g.hasConcept source = true ∧ g.hasConcept target = true := by
  have hs : g.hasConcept source = true := by
    by_contra hn
    rw [requireConcept_of_absent hn] at h
    cases h
  obtain ⟨concept, hc⟩ := hasConcept_iff.mp hs
  refine ⟨hs, ?_⟩
  by_contra hn
  rw [requireConcept_eq_ok.mpr hc, requireConcept_of_absent hn] at h
  cases h

/-- A relation that was added leads between concepts of the graph. -/
theorem ends_of_addRelation (h : g.addRelation relation = .ok g') :
    g.hasConcept relation.triple.source = true ∧ g.hasConcept relation.triple.target = true :=
  ends_of_require h

/-- A triple that is there or was added leads between concepts of the graph. -/
theorem ends_of_addTripleIfAbsent {triple : Triple} {created : Bool}
    (h : g.addTripleIfAbsent triple = .ok (created, g')) :
    g.hasConcept triple.source = true ∧ g.hasConcept triple.target = true :=
  ends_of_require h

/-- Between concepts of the graph a triple is there or its relation is added. -/
theorem addTripleIfAbsent_of_ends {triple : Triple} (hs : g.hasConcept triple.source = true)
    (ht : g.hasConcept triple.target = true) :
    g.addTripleIfAbsent triple =
      if g.hasTriple triple then .ok (false, g)
      else (g.addRelation (.ofTriple triple)).map fun g => (true, g) := by
  obtain ⟨source, hs⟩ := hasConcept_iff.mp hs
  obtain ⟨target, ht⟩ := hasConcept_iff.mp ht
  unfold addTripleIfAbsent
  rw [requireConcept_eq_ok.mpr hs, requireConcept_eq_ok.mpr ht]
  change (if g.hasTriple triple = true then _ else _) = _
  split
  next => rfl
  next => cases g.addRelation (.ofTriple triple) <;> rfl

/-- A triple is there already, and the graph stays, or its relation is added. -/
theorem addTripleIfAbsent_eq_ok {triple : Triple} {created : Bool}
    (h : g.addTripleIfAbsent triple = .ok (created, g')) :
    (g.hasTriple triple = true ∧ g' = g) ∨
      (g.hasTriple triple = false ∧ g.addRelation (.ofTriple triple) = .ok g') := by
  obtain ⟨hs, ht⟩ := ends_of_addTripleIfAbsent h
  rw [addTripleIfAbsent_of_ends hs ht] at h
  split at h
  next said =>
    cases h
    exact .inl ⟨said, rfl⟩
  next unsaid =>
    obtain ⟨next, hadd, h⟩ := exists_of_bind_eq_ok h
    cases h
    exact .inr ⟨Bool.eq_false_iff.mpr unsaid, hadd⟩

/-- A relation is added by entering it under a free id or by extending the metadata of its equal. -/
theorem addRelation_eq_ok (h : g.addRelation relation = .ok g') :
    (g.relations.get? relation.id = none ∧ g' = g.putRelation relation) ∨
    ∃ existing, g.relations.get? relation.id = some existing ∧
      existing.triple = relation.triple ∧
      g' = { g with relations :=
        g.relations.insert relation.id (existing.annotate relation.metadata) } := by
  obtain ⟨hs, ht⟩ := ends_of_addRelation h
  rw [addRelation_of_ends hs ht] at h
  cases hr : g.relations.get? relation.id with
  | none =>
    rw [hr] at h
    exact .inl ⟨rfl, (Except.ok.inj h).symm⟩
  | some existing =>
    simp only [hr] at h
    split at h
    next same => exact .inr ⟨existing, rfl, same, (Except.ok.inj h).symm⟩
    next => cases h

/-- Adding a relation leaves the concepts. -/
theorem addRelation_concepts (h : g.addRelation relation = .ok g') : g'.concepts = g.concepts := by
  rcases addRelation_eq_ok h with ⟨-, rfl⟩ | ⟨existing, -, -, rfl⟩ <;> rfl

/-- Adding a relation leaves all others. -/
theorem get?_addRelation_of_ne (h : g.addRelation relation = .ok g') (hn : relation.id ≠ id) :
    g'.relations.get? id = g.relations.get? id := by
  rcases addRelation_eq_ok h with ⟨-, rfl⟩ | ⟨existing, -, -, rfl⟩
  · rw [get?_putRelation, if_neg hn]
  · rw [Dict.get?_insert, if_neg hn]

/-- What stands under the id of a relation that was added says its triple. -/
theorem get?_addRelation_self (h : g.addRelation relation = .ok g') :
    ∃ stored, g'.relations.get? relation.id = some stored ∧ stored.triple = relation.triple := by
  rcases addRelation_eq_ok h with ⟨-, rfl⟩ | ⟨existing, -, ht, rfl⟩
  · exact ⟨relation, by rw [get?_putRelation, if_pos rfl], rfl⟩
  · exact ⟨existing.annotate relation.metadata, by rw [Dict.get?_insert, if_pos rfl], ht⟩

/-- What stands under an id says the same triple after relations are added. -/
theorem get?_addRelation_of_some {stored : Relation} (h : g.addRelation relation = .ok g')
    (hs : g.relations.get? id = some stored) :
    ∃ kept, g'.relations.get? id = some kept ∧ kept.triple = stored.triple := by
  by_cases same : relation.id = id
  · subst same
    rcases addRelation_eq_ok h with ⟨hn, -⟩ | ⟨existing, he, -, rfl⟩
    · rw [hn] at hs
      cases hs
    · rw [he] at hs
      cases hs
      exact ⟨stored.annotate relation.metadata, by rw [Dict.get?_insert, if_pos rfl], rfl⟩
  · exact ⟨stored, (get?_addRelation_of_ne h same).trans hs, rfl⟩

/-- A relation may be set under its id between concepts of the graph, if the index follows. -/
theorem WellFormed.setRelation {named : Dict Unit} (h : g.WellFormed)
    (hs : g.hasConcept relation.triple.source = true)
    (ht : g.hasConcept relation.triple.target = true)
    (hn : ∀ id, named.contains id = true ↔
      if relation.id = id then relation.isNamed = true else g.named.contains id = true) :
    { g with relations := g.relations.insert relation.id relation, named }.WellFormed where
  concept_id := h.concept_id
  relation_id := by
    intro key other hg
    rw [Dict.get?_insert] at hg
    split at hg
    next same =>
      cases hg
      exact same
    next => exact h.relation_id key other hg
  source_mem := by
    intro key other hg
    rw [Dict.get?_insert] at hg
    split at hg
    next =>
      cases hg
      exact hs
    next => exact h.source_mem key other hg
  target_mem := by
    intro key other hg
    rw [Dict.get?_insert] at hg
    split at hg
    next =>
      cases hg
      exact ht
    next => exact h.target_mem key other hg
  named_iff := by
    intro id
    rw [hn, Dict.get?_insert]
    split
    · simp
    · exact h.named_iff id

/-- Entering a relation between concepts of the graph keeps it well-formed, unless the id stood for a
relation that the index has and the new one is not named. -/
theorem WellFormed.putRelation (h : g.WellFormed)
    (hs : g.hasConcept relation.triple.source = true)
    (ht : g.hasConcept relation.triple.target = true)
    (hn : g.relations.get? relation.id = none) : (g.putRelation relation).WellFormed := by
  refine h.setRelation hs ht fun id => ?_
  have hfree : ¬g.named.contains relation.id = true := by
    rw [h.named_iff]
    rintro ⟨other, ho, -⟩
    rw [hn] at ho
    cases ho
  by_cases same : relation.id = id
  · subst same
    by_cases hr : relation.isNamed = true <;> simp [hr, hfree]
  · by_cases hr : relation.isNamed = true <;> simp [hr, same]

/-- Adding a relation keeps a graph well-formed. -/
theorem WellFormed.addRelation (h : g.WellFormed) (ha : g.addRelation relation = .ok g') :
    g'.WellFormed := by
  obtain ⟨hs, ht⟩ := ends_of_addRelation ha
  rcases addRelation_eq_ok ha with ⟨hn, rfl⟩ | ⟨existing, he, hsame, rfl⟩
  · exact h.putRelation hs ht hn
  · have hid : (existing.annotate relation.metadata).id = relation.id :=
      h.relation_id relation.id existing he
    rw [← hsame] at hs ht
    rw [← hid]
    refine h.setRelation hs ht fun id => ?_
    split
    next same =>
      rw [h.named_iff, ← same, hid, he]
      constructor
      · rintro ⟨stored, hstored, hn⟩
        cases hstored
        exact hn
      · intro hn
        exact ⟨existing, rfl, hn⟩
    next => rfl

/-- Adding relations leaves a well-formed graph also where it stops. -/
theorem WellFormed.addRelations (h : g.WellFormed) (relations : List Relation) :
    (g.addRelations relations).graph.WellFormed := by
  induction relations generalizing g with
  | nil => exact h
  | cons relation rest ih =>
    rw [Graph.addRelations]
    cases ha : g.addRelation relation with
    | ok next => exact ih (h.addRelation ha)
    | error fault => exact h

/-- Adding the relation of a triple, unless some relation says it, keeps a graph well-formed. -/
theorem WellFormed.addTripleIfAbsent {triple : Triple} {created : Bool} (h : g.WellFormed)
    (ha : g.addTripleIfAbsent triple = .ok (created, g')) : g'.WellFormed := by
  rcases addTripleIfAbsent_eq_ok ha with ⟨-, rfl⟩ | ⟨-, hadd⟩
  · exact h
  · exact h.addRelation hadd

/-- Merging leaves a well-formed graph also where it stops. -/
theorem WellFormed.merge (h : g.WellFormed) (other : Graph) : (g.merge other).graph.WellFormed :=
  (h.addConcepts other.conceptList).addRelations other.relationList

/-- An operation that came to its end has the graph it leaves behind as its result. -/
theorem toExcept_eq_ok {edited : Edited} :
    edited.toExcept = .ok g ↔ edited.fault = none ∧ edited.graph = g := by
  unfold Edited.toExcept
  cases edited.fault <;> simp

/-- The fault of an operation is that which stopped it. -/
theorem toExcept_eq_error {edited : Edited} {fault : Fault} :
    edited.toExcept = .error fault ↔ edited.fault = some fault := by
  unfold Edited.toExcept
  cases edited.fault <;> simp

/-- An operation has a result just when nothing stopped it. -/
theorem exists_toExcept_iff {edited : Edited} :
    (∃ g, edited.toExcept = .ok g) ↔ edited.fault = none := by
  simp [toExcept_eq_ok]

/-- An operation that has a result came to its end with it. -/
theorem eq_mk_of_toExcept {edited : Edited} (h : edited.toExcept = .ok g) : edited = ⟨g, none⟩ := by
  obtain ⟨hfault, hgraph⟩ := toExcept_eq_ok.mp h
  rw [← hfault, ← hgraph]

/-- Relations are added one after the other. -/
theorem addRelations_cons_eq_ok {rest : List Relation} :
    (g.addRelations (relation :: rest)).toExcept = .ok g' ↔
      ∃ next, g.addRelation relation = .ok next ∧ (next.addRelations rest).toExcept = .ok g' := by
  rw [addRelations]
  cases g.addRelation relation with
  | ok next => simp
  | error fault => simp [Edited.toExcept]

/-- Adding relations leaves the concepts. -/
theorem addRelations_concepts (relations : List Relation) :
    (g.addRelations relations).graph.concepts = g.concepts := by
  induction relations generalizing g with
  | nil => rfl
  | cons relation rest ih =>
    rw [addRelations]
    cases ha : g.addRelation relation with
    | ok next => exact ih.trans (addRelation_concepts ha)
    | error fault => rfl

/-- What stands under an id says the same triple after relations are added. -/
theorem get?_addRelations_of_some {relations : List Relation} {stored : Relation}
    (hs : g.relations.get? id = some stored) :
    ∃ kept, (g.addRelations relations).graph.relations.get? id = some kept ∧
      kept.triple = stored.triple := by
  induction relations generalizing g stored with
  | nil => exact ⟨stored, hs, rfl⟩
  | cons relation rest ih =>
    rw [addRelations]
    cases ha : g.addRelation relation with
    | ok next =>
      obtain ⟨middle, hm, ht⟩ := get?_addRelation_of_some ha hs
      obtain ⟨kept, hk, ht'⟩ := ih hm
      exact ⟨kept, hk, ht'.trans ht⟩
    | error fault => exact ⟨stored, hs, rfl⟩

/-- Every relation that was added is there, with its triple, under its id. -/
theorem get?_addRelations_of_mem {relations : List Relation}
    (h : (g.addRelations relations).toExcept = .ok g') (hr : relation ∈ relations) :
    ∃ kept, g'.relations.get? relation.id = some kept ∧ kept.triple = relation.triple := by
  induction relations generalizing g with
  | nil => cases hr
  | cons head rest ih =>
    obtain ⟨next, ha, hrest⟩ := addRelations_cons_eq_ok.mp h
    rcases List.mem_cons.mp hr with rfl | hr
    · obtain ⟨stored, hs, ht⟩ := get?_addRelation_self ha
      obtain ⟨kept, hk, ht'⟩ := @get?_addRelations_of_some _ _ rest _ hs
      exact ⟨kept, (toExcept_eq_ok.mp hrest).2 ▸ hk, ht'.trans ht⟩
    · exact ih hrest hr

/-- A relation found after others were added was there before or says what one of them says. -/
theorem get?_addRelations_cases {relations : List Relation} {stored : Relation}
    (hs : (g.addRelations relations).graph.relations.get? id = some stored) :
    (∃ before, g.relations.get? id = some before ∧ before.triple = stored.triple) ∨
      ∃ relation ∈ relations, relation.id = id ∧ relation.triple = stored.triple := by
  induction relations generalizing g with
  | nil => exact .inl ⟨stored, hs, rfl⟩
  | cons relation rest ih =>
    rw [addRelations] at hs
    cases ha : g.addRelation relation with
    | error fault =>
      rw [ha] at hs
      exact .inl ⟨stored, hs, rfl⟩
    | ok next =>
      rw [ha] at hs
      rcases ih hs with ⟨before, hb, ht⟩ | ⟨other, ho, hi, ht⟩
      · by_cases same : relation.id = id
        · obtain ⟨entered, he, ht'⟩ := get?_addRelation_self ha
          rw [same, hb] at he
          cases he
          exact .inr ⟨relation, List.mem_cons_self, same, ht'.symm.trans ht⟩
        · exact .inl ⟨before, (get?_addRelation_of_ne ha same) ▸ hb, ht⟩
      · exact .inr ⟨other, List.mem_cons_of_mem _ ho, hi, ht⟩

/-- A graph with only concepts and relations of a well-formed one is well-formed, if it has the ends of
its relations and its index is that of the other one restricted to them. -/
theorem WellFormed.of_sub (h : g.WellFormed)
    (hc : ∀ id concept, g'.concepts.get? id = some concept → g.concepts.get? id = some concept)
    (hr : ∀ id relation, g'.relations.get? id = some relation →
      g.relations.get? id = some relation ∧ g'.hasConcept relation.triple.source = true ∧
        g'.hasConcept relation.triple.target = true)
    (hn : ∀ id, g'.named.contains id = true ↔
      g.named.contains id = true ∧ g'.relations.contains id = true) : g'.WellFormed where
  concept_id id concept hg := h.concept_id id concept (hc id concept hg)
  relation_id id relation hg := h.relation_id id relation (hr id relation hg).1
  source_mem id relation hg := (hr id relation hg).2.1
  target_mem id relation hg := (hr id relation hg).2.2
  named_iff id := by
    rw [hn, h.named_iff, Dict.contains_iff]
    constructor
    · rintro ⟨⟨relation, hg, hnamed⟩, kept, hk⟩
      have hsame := hg.symm.trans (hr id kept hk).1
      rw [Option.some.inj hsame] at hnamed
      exact ⟨kept, hk, hnamed⟩
    · rintro ⟨relation, hg, hnamed⟩
      exact ⟨⟨relation, (hr id relation hg).1, hnamed⟩, relation, hg⟩

/-- Removing a relation leaves all others. -/
theorem get?_removeRelation (name : String) : (g.removeRelation name).2.relations.get? id =
    if id = name then none else g.relations.get? id :=
  Dict.get?_erase ..

/-- Removing a relation keeps a graph well-formed. -/
theorem WellFormed.removeRelation (h : g.WellFormed) (name : String) :
    (g.removeRelation name).2.WellFormed := by
  refine h.of_sub (fun _ _ hg => hg) ?_ ?_
  · intro id relation hg
    rw [get?_removeRelation] at hg
    split at hg
    next => cases hg
    next => exact ⟨hg, h.source_mem id relation hg, h.target_mem id relation hg⟩
  · intro id
    simp only [Graph.removeRelation, Dict.contains_erase]
    constructor
    · rintro ⟨hne, hnamed⟩
      obtain ⟨relation, hg, -⟩ := (h.named_iff id).mp hnamed
      exact ⟨hnamed, hne, Dict.contains_of_get? hg⟩
    · rintro ⟨hnamed, hne, -⟩
      exact ⟨hne, hnamed⟩

/-- Removing relations keeps a graph well-formed. -/
theorem WellFormed.removeRelations (h : g.WellFormed) (names : List String) :
    (g.removeRelations names).WellFormed := by
  induction names generalizing g with
  | nil => exact h
  | cons name rest ih => exact ih (h.removeRelation name)

/-- Removing a concept takes the relations that touch it and their names along. -/
theorem removeConcept_eq_ok {removed : Concept} (h : g.removeConcept id = .ok (removed, g')) :
    g' = { concepts := g.concepts.erase id
           relations := g.relations.filter fun _ relation => !relation.touches id .both
           named := g.named.filter fun name _ =>
            (g.relations.filter fun _ relation => !relation.touches id .both).contains name } := by
  unfold removeConcept at h
  obtain ⟨concept, hc, h⟩ := exists_of_bind_eq_ok h
  cases h
  rfl

/-- Removing a concept with its relations keeps a graph well-formed. -/
theorem WellFormed.removeConcept {removed : Concept} (h : g.WellFormed)
    (hr : g.removeConcept id = .ok (removed, g')) : g'.WellFormed := by
  have he := removeConcept_eq_ok hr
  subst he
  refine h.of_sub ?_ ?_ ?_
  · intro key concept hg
    rw [Dict.get?_erase] at hg
    split at hg
    next => cases hg
    next => exact hg
  · intro key relation hg
    rw [Dict.get?_filter, Option.filter_eq_some_iff] at hg
    obtain ⟨hg, haway⟩ := hg
    simp only [Relation.touches, Bool.not_eq_true', Bool.or_eq_false_iff, decide_eq_false_iff_not]
      at haway
    exact ⟨hg, Dict.contains_erase.mpr ⟨haway.1, h.source_mem key relation hg⟩,
      Dict.contains_erase.mpr ⟨haway.2, h.target_mem key relation hg⟩⟩
  · intro key
    exact Dict.contains_filter_key

/-- The graph of the concepts that are referred to and of the relations that say triples of them. -/
def ofStatements (references : List String) (triples : List Triple) : Graph :=
  ((Graph.empty.addConcepts (references.map .ofReference)).addRelations
    (triples.map .ofTriple)).graph

/-- A graph of statements is well-formed, also if some statement is about a concept it does not have. -/
theorem wellFormed_ofStatements (references : List String) (triples : List Triple) :
    (ofStatements references triples).WellFormed :=
  (wellFormed_empty.addConcepts _).addRelations _

end Graph

end KnowledgeGraph
