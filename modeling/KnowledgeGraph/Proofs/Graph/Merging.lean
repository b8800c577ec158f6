import KnowledgeGraph.Proofs.Graph.Rebuilding
import KnowledgeGraph.Proofs.Graph.Saying

/-!
# Merging graphs

What a merged graph has and says: what either of the two has and says. Concepts that both have equal
stay what they are, and a relation that both have takes on the metadata of the second one.
-/

namespace KnowledgeGraph.Graph

variable {g g' other bound : Graph} {concept : Concept} {relation : Relation} {id : String}
  {triple : Triple}

/-- Concepts that both graphs have are equal. -/
def ConceptsAgree (g other : Graph) : Prop :=
  ∀ id concept found, g.concepts.get? id = some concept → other.concepts.get? id = some found →
    concept = found

/-- Concepts that are equal to those of the graph with their ids, and have ids of their own, are
entered as they are. -/
theorem get?_addConcepts_of_agreeing {concepts : List Concept} (hn : (concepts.map (·.id)).Nodup)
    (ha : ∀ added ∈ concepts, ∀ existing, g.concepts.get? added.id = some existing →
      existing = added) :
    (g.addConcepts concepts).concepts.get? id = some concept ↔
      g.concepts.get? id = some concept ∨ concept ∈ concepts ∧ concept.id = id := by
  induction concepts generalizing g with
  | nil => simp [addConcepts]
  | cons head rest ih =>
    obtain ⟨hhead, hrest⟩ := List.nodup_cons.mp hn
    have hover : g.laidOver head = head := by
      unfold laidOver concept?
      cases he : g.concepts.get? head.id with
      | none => rfl
      | some existing =>
        rw [ha head List.mem_cons_self existing he]
        exact head.overlay_self
    have ha' : ∀ added ∈ rest, ∀ existing,
        (g.addConcept head).concepts.get? added.id = some existing → existing = added := by
      intro added hadded existing he
      have hne : head.id ≠ added.id := fun same =>
        hhead (List.mem_map.mpr ⟨added, hadded, same.symm⟩)
      rw [get?_addConcept, if_neg hne] at he
      exact ha added (List.mem_cons_of_mem _ hadded) existing he
    rw [addConcepts, List.foldl_cons, ← addConcepts, ih hrest ha', get?_addConcept, hover]
    by_cases same : head.id = id
    · subst same
      rw [if_pos rfl, Option.some.injEq, List.mem_cons]
      constructor
      · rintro (rfl | ⟨hm, hi⟩)
        · exact .inr ⟨.inl rfl, rfl⟩
        · exact .inr ⟨.inr hm, hi⟩
      · rintro (hg | ⟨rfl | hm, hi⟩)
        · exact .inl (ha head List.mem_cons_self concept hg).symm
        · exact .inl rfl
        · exact .inr ⟨hm, hi⟩
    · rw [if_neg same, List.mem_cons]
      refine or_congr_right (and_congr_left fun hi => ⟨.inr, ?_⟩)
      rintro (rfl | hm)
      · exact absurd hi same
      · exact hm

/-- Graphs that agree on their concepts merge to a graph with the concepts of both. -/
theorem ConceptsAgree.get?_merge (h : g.ConceptsAgree other) (ho : other.WellFormed) :
    (g.merge other).graph.concepts.get? id = some concept ↔
      g.concepts.get? id = some concept ∨ other.concepts.get? id = some concept := by
  have hagree : ∀ added ∈ other.conceptList, ∀ existing,
      g.concepts.get? added.id = some existing → existing = added := by
    intro added hadded existing he
    exact h added.id existing added he (ho.mem_conceptList.mp hadded)
  rw [merge, addRelations_concepts, get?_addConcepts_of_agreeing ho.nodup_conceptIds hagree]
  refine or_congr_right ⟨?_, fun hg => ?_⟩
  · rintro ⟨hm, rfl⟩
    exact ho.mem_conceptList.mp hm
  · have hi := ho.concept_id id concept hg
    rw [← hi] at hg
    exact ⟨ho.mem_conceptList.mpr hg, hi⟩

/-- A merged graph has the concepts of either. -/
theorem hasConcept_merge (ho : other.WellFormed) :
    (g.merge other).graph.hasConcept id = true ↔
      g.hasConcept id = true ∨ other.hasConcept id = true := by
  rw [hasConcept, merge, addRelations_concepts, ← hasConcept, hasConcept_addConcepts,
    ho.exists_mem_conceptList, or_comm]

/-- A merged graph says what either says. -/
theorem says_merge (h : (g.merge other).toExcept = .ok g') :
    g'.Says triple ↔ g.Says triple ∨ other.Says triple := by
  rw [says_addRelations h]
  have hsame : (g.addConcepts other.conceptList).Says triple ↔ g.Says triple := by
    rw [says_iff, says_iff, addConcepts_relations]
  rw [hsame]
  exact Iff.rfl

/-- The relation that stands under the id of one that is added: itself, or the one that is there with
its metadata. -/
def annotated (g : Graph) (relation : Relation) : Relation :=
  match g.relation? relation.id with
  | none => relation
  | some existing => existing.annotate relation.metadata

/-- What stands under the id of a relation that was added. -/
theorem get?_addRelation_annotated (h : g.addRelation relation = .ok g') :
    g'.relations.get? relation.id = some (g.annotated relation) := by
  unfold annotated relation?
  rcases addRelation_eq_ok h with ⟨hn, rfl⟩ | ⟨existing, he, -, rfl⟩
  · rw [hn, get?_putRelation, if_pos rfl]
  · rw [he, Dict.get?_insert, if_pos rfl]

/-- Adding relations leaves what stands under other ids. -/
theorem get?_addRelations_of_ne {relations : List Relation}
    (hn : ∀ relation ∈ relations, relation.id ≠ id) :
    (g.addRelations relations).graph.relations.get? id = g.relations.get? id := by
  induction relations generalizing g with
  | nil => rfl
  | cons head rest ih =>
    rw [addRelations]
    cases ha : g.addRelation head with
    | error fault => rfl
    | ok next =>
      simp only
      rw [ih fun other ho => hn other (List.mem_cons_of_mem _ ho),
        get?_addRelation_of_ne ha (hn head List.mem_cons_self)]

/-- What stands under the id of one of several relations that were added. -/
theorem get?_addRelations_annotated {relations : List Relation}
    (hn : (relations.map (·.id)).Nodup) (h : (g.addRelations relations).toExcept = .ok g')
    (hr : relation ∈ relations) :
    g'.relations.get? relation.id = some (g.annotated relation) := by
  induction relations generalizing g with
  | nil => cases hr
  | cons head rest ih =>
    obtain ⟨hhead, hrest⟩ := List.nodup_cons.mp hn
    obtain ⟨next, ha, hadded⟩ := addRelations_cons_eq_ok.mp h
    rcases List.mem_cons.mp hr with rfl | hr
    · have hothers : ∀ other ∈ rest, other.id ≠ relation.id := fun other ho same =>
        hhead (List.mem_map.mpr ⟨other, ho, same⟩)
      rw [← (toExcept_eq_ok.mp hadded).2, get?_addRelations_of_ne hothers,
        get?_addRelation_annotated ha]
    · have hne : head.id ≠ relation.id := fun same =>
        hhead (List.mem_map.mpr ⟨relation, hr, same.symm⟩)
      rw [ih hrest hadded hr, annotated, annotated, relation?, relation?,
        get?_addRelation_of_ne ha hne]

/-- What stands under an id of the first graph says the same after merging. -/
theorem get?_merge_left (h : (g.merge other).toExcept = .ok g')
    (hr : g.relations.get? id = some relation) :
    ∃ kept, g'.relations.get? id = some kept ∧ kept.triple = relation.triple := by
  have hbefore : (g.addConcepts other.conceptList).relations.get? id = some relation := by
    rw [addConcepts_relations, hr]
  obtain ⟨kept, hk, ht⟩ := @get?_addRelations_of_some _ id other.relationList relation hbefore
  rw [← merge, (toExcept_eq_ok.mp h).2] at hk
  exact ⟨kept, hk, ht⟩

/-- What stands under an id of the second graph says the same after merging. -/
theorem get?_merge_right (ho : other.WellFormed) (h : (g.merge other).toExcept = .ok g')
    (hr : other.relations.get? id = some relation) :
    ∃ kept, g'.relations.get? id = some kept ∧ kept.triple = relation.triple := by
  have hi := ho.relation_id id relation hr
  subst hi
  exact get?_addRelations_of_mem h (ho.mem_relationList.mpr hr)

/-- A merged graph has the relations of the first under ids that the second does not have. -/
theorem get?_merge_of_none (ho : other.WellFormed) (hn : other.relations.get? id = none) :
    (g.merge other).graph.relations.get? id = g.relations.get? id := by
  have hne : ∀ relation ∈ other.relationList, relation.id ≠ id := by
    rintro relation hr rfl
    rw [ho.mem_relationList.mp hr] at hn
    cases hn
  rw [merge, get?_addRelations_of_ne hne, addConcepts_relations]

/-- A merged graph has each relation of the second, or that of the first with its metadata. -/
theorem get?_merge_of_some (ho : other.WellFormed) (h : (g.merge other).toExcept = .ok g')
    (hr : other.relations.get? id = some relation) :
    g'.relations.get? id = some (g.annotated relation) := by
  have hi := ho.relation_id id relation hr
  subst hi
  have hadded := get?_addRelations_annotated ho.nodup_relationIds h (ho.mem_relationList.mpr hr)
  have hsame : (g.addConcepts other.conceptList).annotated relation = g.annotated relation := by
    rw [annotated, annotated, relation?, relation?, addConcepts_relations]
  rwa [hsame] at hadded

/-- What stands under an id of the graph says the triple. -/
def SaysUnder (g : Graph) (id : String) (triple : Triple) : Prop :=
  ∃ relation, g.relations.get? id = some relation ∧ relation.triple = triple

/-- Under each id of the first graph the second one says the same. -/
def KeptBy (g bound : Graph) : Prop := ∀ id triple, g.SaysUnder id triple → bound.SaysUnder id triple

/-- A relation is not refused where all that is said is kept by one graph, which says it as well. -/
theorem KeptBy.addRelation (h : g.KeptBy bound) (hr : bound.SaysUnder relation.id relation.triple)
    (hs : g.hasConcept relation.triple.source = true)
    (ht : g.hasConcept relation.triple.target = true) :
    ∃ g', g.addRelation relation = .ok g' ∧ g'.KeptBy bound := by
  have hok : ∃ g', g.addRelation relation = .ok g' := by
    rw [addRelation_of_ends hs ht]
    cases he : g.relations.get? relation.id with
    | none => exact ⟨_, rfl⟩
    | some existing =>
      obtain ⟨found, hf, hsame⟩ := h relation.id existing.triple ⟨existing, he, rfl⟩
      obtain ⟨found', hf', hsame'⟩ := hr
      rw [hf] at hf'
      cases hf'
      exact ⟨_, if_pos (hsame.symm.trans hsame')⟩
  obtain ⟨g', ha⟩ := hok
  refine ⟨g', ha, ?_⟩
  rintro id triple ⟨stored, hstored, rfl⟩
  by_cases same : relation.id = id
  · subst same
    obtain ⟨entered, he, hsame⟩ := get?_addRelation_self ha
    rw [hstored] at he
    cases he
    rw [hsame]
    exact hr
  · rw [get?_addRelation_of_ne ha same] at hstored
    exact h id stored.triple ⟨stored, hstored, rfl⟩

/-- Relations are not refused where all that is said is kept by one graph, which says them as well. -/
theorem KeptBy.addRelations {relations : List Relation} (h : g.KeptBy bound)
    (hr : ∀ relation ∈ relations, bound.SaysUnder relation.id relation.triple)
    (he : ∀ relation ∈ relations, g.hasConcept relation.triple.source = true ∧
      g.hasConcept relation.triple.target = true) :
    ∃ g', (g.addRelations relations).toExcept = .ok g' ∧ g'.KeptBy bound := by
  induction relations generalizing g with
  | nil => exact ⟨g, rfl, h⟩
  | cons head rest ih =>
    obtain ⟨hhead, hrest⟩ := List.forall_mem_cons.mp hr
    obtain ⟨⟨hs, ht⟩, hends⟩ := List.forall_mem_cons.mp he
    obtain ⟨next, ha, hnext⟩ := h.addRelation hhead hs ht
    have hsame : ∀ id, next.hasConcept id = g.hasConcept id := fun id => by
      rw [hasConcept, hasConcept, addRelation_concepts ha]
    obtain ⟨g', hg', hkept⟩ := ih hnext hrest fun relation hm => by
      rw [hsame, hsame]
      exact hends relation hm
    exact ⟨g', addRelations_cons_eq_ok.mpr ⟨next, ha, hg'⟩, hkept⟩

/-- Two graphs of which one graph keeps all that they say merge without fault. -/
theorem KeptBy.merge (h : g.KeptBy bound) (ho : other.WellFormed) (hb : other.KeptBy bound) :
    ∃ g', (g.merge other).toExcept = .ok g' ∧ g'.KeptBy bound := by
  have hconcepts : (g.addConcepts other.conceptList).KeptBy bound := by
    rintro id triple ⟨relation, hr, ht⟩
    rw [addConcepts_relations] at hr
    exact h id triple ⟨relation, hr, ht⟩
  refine hconcepts.addRelations ?_ ?_
  · intro relation hr
    exact hb relation.id relation.triple ⟨relation, ho.mem_relationList.mp hr, rfl⟩
  · intro relation hr
    have hg := ho.mem_relationList.mp hr
    exact ⟨hasConcept_addConcepts.mpr (.inl (ho.exists_mem_conceptList.mpr (ho.source_mem _ _ hg))),
      hasConcept_addConcepts.mpr (.inl (ho.exists_mem_conceptList.mpr (ho.target_mem _ _ hg)))⟩

end KnowledgeGraph.Graph
