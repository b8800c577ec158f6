import KnowledgeGraph.Proofs.Graph.Notation

/-!
# Containment of graphs

One graph contains another when it has its concepts and says its triples. Merging leads to the least
graph that contains both. Of graphs with the shape of notation the larger one has the entries of the
smaller one, and is the same if it has no more.
-/

namespace KnowledgeGraph.Graph

variable {g g' other bound : Graph} {concept : Concept} {relation : Relation} {id : String}

/-- A graph is within another one that has its concepts and says its triples. -/
structure Within (g other : Graph) : Prop where
  /-- The other one has each concept. -/
  concepts : ∀ id, g.hasConcept id = true → other.hasConcept id = true
  /-- The other one says each triple. -/
  triples : ∀ relation ∈ g.relationList, ∃ found ∈ other.relationList, found.triple = relation.triple

namespace Within

/-- A graph is within itself. -/
theorem refl (g : Graph) : g.Within g :=
  ⟨fun _ hc => hc, fun relation hr => ⟨relation, hr, rfl⟩⟩

/-- A graph within a second one is within all that contain it. -/
theorem trans (hg : g.Within g') (hg' : g'.Within other) : g.Within other where
  concepts id hc := hg'.concepts id (hg.concepts id hc)
  triples := by
    intro relation hr
    obtain ⟨found, hf, ht⟩ := hg.triples relation hr
    obtain ⟨further, hf', ht'⟩ := hg'.triples found hf
    exact ⟨further, hf', ht'.trans ht⟩

/-- The empty graph is within all. -/
theorem empty (other : Graph) : Graph.empty.Within other :=
  ⟨nofun, nofun⟩

/-- A graph is within what is merged into it, also where the merging stops. -/
theorem merge_left (g other : Graph) : g.Within (g.merge other).graph where
  concepts := by
    intro id hc
    unfold hasConcept merge
    rw [addRelations_concepts]
    exact hasConcept_addConcepts.mpr (.inr hc)
  triples := by
    intro relation hr
    obtain ⟨key, hk⟩ := Dict.mem_values.mp hr
    have hg : (g.addConcepts other.conceptList).relations.get? key = some relation := by
      rw [addConcepts_relations]
      exact hk
    obtain ⟨kept, hkept, ht⟩ := @get?_addRelations_of_some _ key other.relationList relation hg
    exact ⟨kept, Dict.mem_values.mpr ⟨key, hkept⟩, ht⟩

/-- A graph that was merged into another one is within the result. -/
theorem merge_right (ho : other.WellFormed) (hm : (g.merge other).toExcept = .ok g') :
    other.Within g' where
  concepts := by
    intro id hc
    rw [← (toExcept_eq_ok.mp hm).2]
    unfold hasConcept merge
    rw [addRelations_concepts]
    exact hasConcept_addConcepts.mpr (.inl (ho.exists_mem_conceptList.mpr hc))
  triples := by
    intro relation hr
    obtain ⟨kept, hk, ht⟩ := get?_addRelations_of_mem hm hr
    exact ⟨kept, Dict.mem_values.mpr ⟨relation.id, hk⟩, ht⟩

/-- What contains two graphs contains one merged into the other. -/
theorem merge (ho : other.WellFormed) (hg : g.Within bound) (hb : other.Within bound) :
    (g.merge other).graph.Within bound where
  concepts := by
    intro id hc
    unfold hasConcept Graph.merge at hc
    rw [addRelations_concepts] at hc
    rcases hasConcept_addConcepts.mp hc with ⟨concept, hm, rfl⟩ | hc
    · exact hb.concepts _ (Dict.contains_of_get? (ho.mem_conceptList.mp hm))
    · exact hg.concepts id hc
  triples := by
    intro relation hr
    obtain ⟨key, hk⟩ := Dict.mem_values.mp hr
    rcases get?_addRelations_cases hk with ⟨before, hbefore, ht⟩ | ⟨added, ha, -, ht⟩
    · rw [addConcepts_relations] at hbefore
      obtain ⟨found, hf, ht'⟩ := hg.triples before (Dict.mem_values.mpr ⟨key, hbefore⟩)
      exact ⟨found, hf, ht'.trans ht⟩
    · obtain ⟨found, hf, ht'⟩ := hb.triples added ha
      exact ⟨found, hf, ht'.trans ht⟩

/-- The larger graph has the concepts of the smaller one as they are. -/
theorem get?_concept (hw : g.Within other) (hg : g.NotationShaped) (ho : other.NotationShaped)
    (hc : g.concepts.get? id = some concept) : other.concepts.get? id = some concept := by
  rw [hg.concept_eq hc]
  exact ho.get?_concept (hw.concepts id (Dict.contains_of_get? hc))

/-- The larger graph has the relations of the smaller one as they are. -/
theorem get?_relation (hw : g.Within other) (hg : g.NotationShaped) (ho : other.NotationShaped)
    (hr : g.relations.get? id = some relation) : other.relations.get? id = some relation := by
  have hid : relation.triple.id = id :=
    (hg.relation_name id relation hr).symm.trans (hg.relation_id id relation hr)
  have hspoken := ho.says_iff.mp (hw.triples relation (Dict.mem_values.mpr ⟨id, hr⟩))
  rw [hid] at hspoken
  rw [hspoken, ← hg.relation_eq hr]

/-- A graph with no more concepts and relations than one within it is the same. -/
theorem eq_of_size (hw : g.Within other) (hg : g.NotationShaped) (ho : other.NotationShaped)
    (hc : other.concepts.size = g.concepts.size) (hr : other.relations.size = g.relations.size) :
    other = g := by
  refine ho.toWellFormed.eq_of_parts hg.toWellFormed ?_ ?_
  · ext id concept
    refine ⟨fun hc' => ?_, hw.get?_concept hg ho⟩
    rw [ho.concept_eq hc']
    exact hg.get?_concept (Dict.contains_of_size_eq hw.concepts hc (Dict.contains_of_get? hc'))
  · ext id relation
    refine ⟨fun hr' => ?_, hw.get?_relation hg ho⟩
    have hkeys : ∀ key, g.relations.contains key = true → other.relations.contains key = true := by
      intro key hk
      obtain ⟨stored, hs⟩ := Dict.contains_iff.mp hk
      exact Dict.contains_of_get? (hw.get?_relation hg ho hs)
    obtain ⟨stored, hs⟩ := Dict.contains_iff.mp
      (Dict.contains_of_size_eq hkeys hr (Dict.contains_of_get? hr'))
    rw [hw.get?_relation hg ho hs] at hr'
    rw [hs, hr']

end Within

end KnowledgeGraph.Graph
