import KnowledgeGraph.Proofs.Graph.Rebuilding

/-!
# Parts and substitution

What the part that a set of concepts spans has of a well-formed graph, and what substitution of a
concept leaves of the others. Both lead from well-formed graphs to well-formed graphs.
-/

namespace KnowledgeGraph.Graph

variable {g g' : Graph} {relation : Relation} {id : String}

/-- Entering relations with new ids of their own between concepts of the graph is adding them. -/
theorem foldl_putRelation {relations : List Relation} (hn : (relations.map (·.id)).Nodup)
    (hf : ∀ relation ∈ relations, g.relations.get? relation.id = none)
    (he : ∀ relation ∈ relations, g.hasConcept relation.triple.source = true ∧
      g.hasConcept relation.triple.target = true) :
    relations.foldl putRelation g = (g.addRelations relations).graph := by
  induction relations generalizing g with
  | nil => rfl
  | cons head rest ih =>
    obtain ⟨hhead, hrest⟩ := List.nodup_cons.mp hn
    obtain ⟨hs, ht⟩ := he head List.mem_cons_self
    have hadd : g.addRelation head = .ok (g.putRelation head) := by
      rw [addRelation_of_ends hs ht, hf head List.mem_cons_self]
    rw [List.foldl_cons, addRelations, hadd]
    refine ih hrest ?_ fun other ho => he other (List.mem_cons_of_mem _ ho)
    intro other ho
    rw [get?_putRelation, if_neg, hf other (List.mem_cons_of_mem _ ho)]
    exact fun same => hhead (List.mem_map.mpr ⟨other, ho, same.symm⟩)

/-- The concepts of a set, without relations. -/
def unrelated (g : Graph) (ids : List String) : Graph :=
  { concepts := g.concepts.filter fun id _ => ids.contains id }

/-- The relations between concepts of a set. -/
def between (g : Graph) (ids : List String) : List Relation :=
  g.relationList.filter fun relation =>
    (g.unrelated ids).hasConcept relation.triple.source &&
      (g.unrelated ids).hasConcept relation.triple.target

/-- A set has the concepts of the graph whose ids are in it. -/
theorem hasConcept_unrelated {ids : List String} :
    (g.unrelated ids).hasConcept id = true ↔ g.hasConcept id = true ∧ id ∈ ids := by
  simp only [hasConcept, unrelated, Dict.contains_filter_key, List.contains_iff_mem]

/-- A relation between concepts of a set has both ends in it. -/
theorem WellFormed.mem_between (h : g.WellFormed) {ids : List String} :
    relation ∈ g.between ids ↔ g.relations.get? relation.id = some relation ∧
      relation.triple.source ∈ ids ∧ relation.triple.target ∈ ids := by
  simp only [between, List.mem_filter, h.mem_relationList, Bool.and_eq_true, hasConcept_unrelated]
  constructor
  · rintro ⟨hg, ⟨-, hs⟩, -, ht⟩
    exact ⟨hg, hs, ht⟩
  · rintro ⟨hg, hs, ht⟩
    exact ⟨hg, ⟨h.source_mem _ _ hg, hs⟩, h.target_mem _ _ hg, ht⟩

/-- A part has the concepts of a set, and the relations between them are added to these. -/
theorem WellFormed.part_eq (h : g.WellFormed) (ids : List String) :
    g.part ids = ((g.unrelated ids).addRelations (g.between ids)).graph := by
  refine @foldl_putRelation (g.unrelated ids) (g.between ids) ?_ (fun _ _ => rfl) ?_
  · exact h.nodup_relationIds.sublist (List.filter_sublist.map _)
  · intro relation hr
    exact Bool.and_eq_true_iff.mp (List.mem_filter.mp hr).2

/-- The concepts of a part are those of the set. -/
theorem WellFormed.part_concepts (h : g.WellFormed) (ids : List String) :
    (g.part ids).concepts = g.concepts.filter fun id _ => ids.contains id := by
  rw [h.part_eq, addRelations_concepts, unrelated]

/-- The relations of a part are those between concepts of the set. -/
theorem WellFormed.get?_part (h : g.WellFormed) {ids : List String} :
    (g.part ids).relations.get? id = some relation ↔ g.relations.get? id = some relation ∧
      relation.triple.source ∈ ids ∧ relation.triple.target ∈ ids := by
  have hn : ((g.between ids).map (·.id)).Nodup :=
    h.nodup_relationIds.sublist (List.filter_sublist.map _)
  have hfree : ∀ relation ∈ g.between ids, (g.unrelated ids).relations.get? relation.id = none :=
    fun _ _ => rfl
  have hends : ∀ relation ∈ g.between ids, (g.unrelated ids).hasConcept relation.triple.source = true ∧
      (g.unrelated ids).hasConcept relation.triple.target = true :=
    fun relation hr => Bool.and_eq_true_iff.mp (List.mem_filter.mp hr).2
  rw [h.part_eq, (addRelations_of_fresh hn hfree hends).2, h.mem_between]
  constructor
  · rintro (⟨⟨hg, hs, ht⟩, rfl⟩ | hnone)
    · exact ⟨hg, hs, ht⟩
    · cases hnone
  · rintro ⟨hg, hs, ht⟩
    have hid := h.relation_id id relation hg
    rw [← hid] at hg
    exact .inl ⟨⟨hg, hs, ht⟩, hid⟩

/-- A part of a well-formed graph is well-formed. -/
theorem WellFormed.part (h : g.WellFormed) (ids : List String) : (g.part ids).WellFormed := by
  have hconcepts : (g.unrelated ids).WellFormed := by
    refine h.of_sub ?_ nofun fun id => ⟨nofun, fun hboth => hboth.2⟩
    intro id concept hg
    rw [unrelated, Dict.get?_filter, Option.filter_eq_some_iff] at hg
    exact hg.1
  rw [h.part_eq]
  exact hconcepts.addRelations _

/-- Removing relations takes their ids out of the relations and out of the index. -/
theorem removeRelations_eq (ids : List String) :
    g.removeRelations ids =
      { g with
        relations := ids.foldl Dict.erase g.relations
        named := ids.foldl Dict.erase g.named } := by
  induction ids generalizing g with
  | nil => rfl
  | cons id rest ih =>
    rw [removeRelations, List.foldl_cons, ← removeRelations, ih]
    rfl

/-- The ids of the relations that touch a concept. -/
def touching (g : Graph) (id : String) : List String := (g.relationsAt id .both).map (·.id)

/-- The graph in which a substitution adds the rewired relations: the placeholder and its relations are
gone and the replacement is there. -/
def vacated (g : Graph) (placeholder : String) (replacement : Concept) : Graph :=
  (addConcept { g with concepts := g.concepts.erase placeholder } replacement).removeRelations
    (g.touching placeholder)

/-- A substitution that comes to its end either lays the replacement over its own id or adds the rewired
relations to the vacated graph. -/
theorem substitute_eq_ok {placeholder : String} {replacement : Concept}
    (hs : (g.substitute placeholder replacement).toExcept = .ok g') :
    (placeholder = replacement.id ∧ g' = g.addConcept replacement) ∨
      (placeholder ≠ replacement.id ∧
        ((g.vacated placeholder replacement).addRelations
          ((g.relationsAt placeholder .both).map (·.rewire placeholder replacement.id))).toExcept =
            .ok g') := by
  unfold substitute at hs
  split at hs
  next => cases hs
  next =>
    split at hs
    next same => exact .inl ⟨same, (Except.ok.inj hs).symm⟩
    next other =>
      right
      refine ⟨other, ?_⟩
      simp only at hs
      split at hs
      next => cases hs
      next => exact hs

/-- No relation of a well-formed graph touches a concept once those that do are removed. -/
theorem WellFormed.get?_vacated (h : g.WellFormed) {placeholder : String} {replacement : Concept} :
    (g.vacated placeholder replacement).relations.get? id = some relation ↔
      g.relations.get? id = some relation ∧ relation.triple.source ≠ placeholder ∧
        relation.triple.target ≠ placeholder := by
  have hleft : ∀ relation, g.relations.get? id = some relation →
      (id ∈ g.touching placeholder ↔
        relation.triple.source = placeholder ∨ relation.triple.target = placeholder) := by
    intro relation hg
    simp only [touching, relationsAt, List.mem_map, List.mem_filter, h.mem_relationList, Relation.touches,
      Bool.or_eq_true, decide_eq_true_eq]
    constructor
    · rintro ⟨other, ⟨ho, ht⟩, rfl⟩
      rw [hg] at ho
      cases ho
      exact ht
    · intro ht
      have hid := h.relation_id id relation hg
      rw [← hid] at hg
      exact ⟨relation, ⟨hg, ht⟩, hid⟩
  rw [vacated, removeRelations_eq, Dict.get?_foldl_erase, addConcept_relations]
  constructor
  · intro hg
    split at hg
    next => cases hg
    next hstays =>
      refine ⟨hg, fun hs => hstays ((hleft relation hg).mpr (.inl hs)), fun ht => hstays ?_⟩
      exact (hleft relation hg).mpr (.inr ht)
  · rintro ⟨hg, hs, ht⟩
    rw [if_neg]
    · exact hg
    · intro hgone
      rcases (hleft relation hg).mp hgone with hs' | ht'
      · exact hs hs'
      · exact ht ht'

/-- The relations that touch a concept can be removed before the concept is. -/
theorem vacated_eq (placeholder : String) (replacement : Concept) :
    g.vacated placeholder replacement =
      addConcept { g.removeRelations (g.touching placeholder) with
        concepts := g.concepts.erase placeholder } replacement := by
  rw [vacated, removeRelations_eq, removeRelations_eq]
  rfl

/-- What a substitution vacates is well-formed. -/
theorem WellFormed.vacated (h : g.WellFormed) (placeholder : String) (replacement : Concept) :
    (g.vacated placeholder replacement).WellFormed := by
  have hremoved := h.removeRelations (g.touching placeholder)
  have hget := fun id relation => @WellFormed.get?_vacated g relation id h placeholder replacement
  rw [vacated_eq] at hget ⊢
  refine (hremoved.of_sub ?_ ?_ ?_).addConcept replacement
  · intro id concept hg
    rw [Dict.get?_erase] at hg
    split at hg
    next => cases hg
    next =>
      rw [removeRelations_eq]
      exact hg
  · intro id relation hg
    obtain ⟨hstays, hs, ht⟩ := (hget id relation).mp hg
    exact ⟨hg, Dict.contains_erase.mpr ⟨hs, h.source_mem id relation hstays⟩,
      Dict.contains_erase.mpr ⟨ht, h.target_mem id relation hstays⟩⟩
  · intro id
    refine ⟨fun hn => ⟨hn, ?_⟩, fun hboth => hboth.1⟩
    obtain ⟨relation, hg, -⟩ := (hremoved.named_iff id).mp hn
    exact Dict.contains_of_get? hg

/-- A substitution leaves a well-formed graph, also where it is refused. -/
theorem WellFormed.substitute_graph (h : g.WellFormed) (placeholder : String) (replacement : Concept) :
    (g.substitute placeholder replacement).graph.WellFormed := by
  unfold Graph.substitute
  split
  next => exact h
  next =>
    split
    next => exact h.addConcept replacement
    next =>
      simp only
      split
      next => exact h
      next => exact (h.vacated placeholder replacement).addRelations _

/-- A substitution that comes to its end keeps a graph well-formed. -/
theorem WellFormed.substitute (h : g.WellFormed) {placeholder : String} {replacement : Concept}
    (hs : (g.substitute placeholder replacement).toExcept = .ok g') : g'.WellFormed := by
  rw [← (toExcept_eq_ok.mp hs).2]
  exact h.substitute_graph placeholder replacement

end KnowledgeGraph.Graph
