import KnowledgeGraph.Proofs.Graph.WellFormed

/-!
# Rebuilding graphs

Adding concepts and relations with ids of their own loses nothing and is never refused. Main statement:
a well-formed graph comes back, with its index, when its concepts and then its relations are added to
the empty graph.
-/

namespace KnowledgeGraph.Graph

variable {g g' : Graph} {id : String}

/-- The index of a well-formed graph is determined by its relations. -/
theorem WellFormed.eq_of_parts (h : g.WellFormed) (h' : g'.WellFormed)
    (hc : g.concepts = g'.concepts) (hr : g.relations = g'.relations) : g = g' := by
  have hn : g.named = g'.named := by
    ext id entry
    have hiff : g.named.contains id = true ↔ g'.named.contains id = true := by
      rw [h.named_iff, h'.named_iff, hr]
    rw [Dict.contains_iff, Dict.contains_iff] at hiff
    constructor
    · intro he
      obtain ⟨other, ho⟩ := hiff.mp ⟨entry, he⟩
      exact ho
    · intro he
      obtain ⟨other, ho⟩ := hiff.mpr ⟨entry, he⟩
      exact ho
  cases g
  cases g'
  congr

/-- Concepts with new ids of their own are entered as they are. -/
theorem get?_addConcepts_of_fresh {concepts : List Concept} {concept : Concept}
    (hn : (concepts.map (·.id)).Nodup)
    (hf : ∀ concept ∈ concepts, g.concepts.get? concept.id = none) :
    (g.addConcepts concepts).concepts.get? id = some concept ↔
      concept ∈ concepts ∧ concept.id = id ∨ g.concepts.get? id = some concept := by
  induction concepts generalizing g with
  | nil => simp [addConcepts]
  | cons head rest ih =>
    obtain ⟨hhead, hrest⟩ := List.nodup_cons.mp hn
    have hfree : g.concepts.get? head.id = none := hf head List.mem_cons_self
    have hover : g.laidOver head = head := by
      unfold laidOver concept?
      rw [hfree]
    have hf' : ∀ concept ∈ rest, (g.addConcept head).concepts.get? concept.id = none := by
      intro other ho
      rw [get?_addConcept, if_neg, hf other (List.mem_cons_of_mem _ ho)]
      exact fun same => hhead (List.mem_map.mpr ⟨other, ho, same.symm⟩)
    rw [addConcepts, List.foldl_cons, ← addConcepts, ih hrest hf', get?_addConcept, hover]
    exact Dict.mem_or_get?_insert hfree

/-- Relations with new ids of their own between concepts of the graph are entered as they are, and none
is refused. -/
theorem addRelations_of_fresh {relations : List Relation} {relation : Relation}
    (hn : (relations.map (·.id)).Nodup)
    (hf : ∀ relation ∈ relations, g.relations.get? relation.id = none)
    (he : ∀ relation ∈ relations, g.hasConcept relation.triple.source = true ∧
      g.hasConcept relation.triple.target = true) :
    (g.addRelations relations).fault = none ∧
      ((g.addRelations relations).graph.relations.get? id = some relation ↔
        relation ∈ relations ∧ relation.id = id ∨ g.relations.get? id = some relation) := by
  induction relations generalizing g with
  | nil => simp [addRelations]
  | cons head rest ih =>
    obtain ⟨hhead, hrest⟩ := List.nodup_cons.mp hn
    obtain ⟨hs, ht⟩ := he head List.mem_cons_self
    have hfree : g.relations.get? head.id = none := hf head List.mem_cons_self
    have hadd : g.addRelation head = .ok (g.putRelation head) := by
      rw [addRelation_of_ends hs ht, hfree]
    have hf' : ∀ relation ∈ rest, (g.putRelation head).relations.get? relation.id = none := by
      intro other ho
      rw [get?_putRelation, if_neg, hf other (List.mem_cons_of_mem _ ho)]
      exact fun same => hhead (List.mem_map.mpr ⟨other, ho, same.symm⟩)
    obtain ⟨hfault, hget⟩ := ih hrest hf' fun other ho => he other (List.mem_cons_of_mem _ ho)
    rw [addRelations, hadd]
    refine ⟨hfault, hget.trans ?_⟩
    rw [get?_putRelation]
    exact Dict.mem_or_get?_insert hfree

/-- The listed concepts have ids of their own. -/
theorem WellFormed.nodup_conceptIds (h : g.WellFormed) : (g.conceptList.map (·.id)).Nodup := by
  have hall := h.map_id_filter fun _ => true
  rw [List.filter_true] at hall
  rw [hall]
  exact Dict.keys_nodup _

/-- The relations are listed by id. -/
theorem WellFormed.map_id_relationList (h : g.WellFormed) :
    g.relationList.map (·.id) = g.relations.keys := by
  rw [relationList, Dict.values, Dict.keys, List.map_map]
  refine List.map_congr_left fun entry he => ?_
  exact h.relation_id entry.1 entry.2 (Dict.mem_entries.mp he)

/-- The listed relations have ids of their own. -/
theorem WellFormed.nodup_relationIds (h : g.WellFormed) : (g.relationList.map (·.id)).Nodup := by
  rw [h.map_id_relationList]
  exact Dict.keys_nodup _

/-- A well-formed graph comes back when its concepts and relations are added to the empty graph. -/
theorem WellFormed.rebuild (h : g.WellFormed) :
    (Graph.empty.addConcepts g.conceptList).addRelations g.relationList = ⟨g, none⟩ := by
  have hconcepts : (Graph.empty.addConcepts g.conceptList).concepts = g.concepts := by
    ext id concept
    rw [get?_addConcepts_of_fresh h.nodup_conceptIds fun _ _ => rfl]
    constructor
    · rintro (⟨hm, rfl⟩ | hnone)
      · exact h.mem_conceptList.mp hm
      · cases hnone
    · intro hg
      exact .inl ⟨Dict.mem_values.mpr ⟨id, hg⟩, h.concept_id id concept hg⟩
  have hends : ∀ relation ∈ g.relationList,
      (Graph.empty.addConcepts g.conceptList).hasConcept relation.triple.source = true ∧
      (Graph.empty.addConcepts g.conceptList).hasConcept relation.triple.target = true := by
    intro relation hr
    unfold hasConcept
    rw [hconcepts]
    have hg := h.mem_relationList.mp hr
    exact ⟨h.source_mem _ _ hg, h.target_mem _ _ hg⟩
  have hfree : ∀ relation ∈ g.relationList,
      (Graph.empty.addConcepts g.conceptList).relations.get? relation.id = none := by
    intro relation _
    rw [addConcepts_relations]
    rfl
  have hall := fun id relation => @addRelations_of_fresh _ id _ relation h.nodup_relationIds hfree hends
  have hrelations : ((Graph.empty.addConcepts g.conceptList).addRelations
      g.relationList).graph.relations = g.relations := by
    ext id relation
    rw [(hall id relation).2, addConcepts_relations]
    constructor
    · rintro (⟨hm, rfl⟩ | hnone)
      · exact h.mem_relationList.mp hm
      · cases hnone
    · intro hg
      exact .inl ⟨Dict.mem_values.mpr ⟨id, hg⟩, h.relation_id id relation hg⟩
  have hgraph := ((wellFormed_empty.addConcepts g.conceptList).addRelations g.relationList).eq_of_parts h
    ((addRelations_concepts _).trans hconcepts) hrelations
  have hfault := (hall "" (.ofTriple ⟨"", "", ""⟩)).1
  cases hedited : (Graph.empty.addConcepts g.conceptList).addRelations g.relationList with
  | mk graph fault =>
    rw [hedited] at hgraph hfault
    rw [← hgraph, ← hfault]

end KnowledgeGraph.Graph
