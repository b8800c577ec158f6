import KnowledgeGraph.Proofs.Graph.Extension
import KnowledgeGraph.Proofs.Graph.Rebuilding

/-!
# Parts of a graph as they are there

A graph may hold just some concepts and just some relations of another one, each as it is there. Such
selections of one graph never conflict: adding to one what the other graph has, or merging two of them,
gives a selection again, with nothing altered and nothing refused. Main statement: `Selects.merge`.
-/

namespace KnowledgeGraph.Graph

variable {data g g' : Graph} {ids ids' : String → Prop} {wanted wanted' : Relation → Prop}
  {concept : Concept} {relation : Relation}

/-- A graph has just the concepts of another one with some ids and just some of its relations, as they are
there. -/
structure Selects (data : Graph) (ids : String → Prop) (wanted : Relation → Prop) (g : Graph) :
    Prop where
  /-- The graph is well-formed. -/
  wellFormed : g.WellFormed
  /-- Its concepts are those of the data with these ids. -/
  concepts_iff : ∀ id concept, g.concepts.get? id = some concept ↔
    data.concepts.get? id = some concept ∧ ids id
  /-- Its relations are those that are wanted of the data. -/
  relations_iff : ∀ id relation, g.relations.get? id = some relation ↔
    data.relations.get? id = some relation ∧ wanted relation

namespace Selects

/-- The empty graph selects nothing. -/
theorem empty (data : Graph) : data.Selects (fun _ => False) (fun _ => False) .empty where
  wellFormed := wellFormed_empty
  concepts_iff _ _ := ⟨nofun, nofun⟩
  relations_iff _ _ := ⟨nofun, nofun⟩

/-- What is selected of the data may be told in other words. -/
theorem congr (h : data.Selects ids wanted g)
    (hids : ∀ id, data.hasConcept id = true → (ids id ↔ ids' id))
    (hwanted : ∀ id relation, data.relations.get? id = some relation →
      (wanted relation ↔ wanted' relation)) : data.Selects ids' wanted' g where
  wellFormed := h.wellFormed
  concepts_iff id concept := (h.concepts_iff id concept).trans <|
    and_congr_right fun hd => hids id (Dict.contains_of_get? hd)
  relations_iff id relation := (h.relations_iff id relation).trans <|
    and_congr_right fun hd => hwanted id relation hd

/-- The same selections are the same graph. -/
theorem unique (h : data.Selects ids wanted g) (h' : data.Selects ids wanted g') : g = g' := by
  refine h.wellFormed.eq_of_parts h'.wellFormed ?_ ?_
  · ext id concept
    exact (h.concepts_iff id concept).trans (h'.concepts_iff id concept).symm
  · ext id relation
    exact (h.relations_iff id relation).trans (h'.relations_iff id relation).symm

/-- A selection has a concept of the data if its id is selected. -/
theorem hasConcept_iff (h : data.Selects ids wanted g) (id : String) :
    g.hasConcept id = true ↔ data.hasConcept id = true ∧ ids id := by
  simp only [Graph.hasConcept_iff, h.concepts_iff, exists_and_right]

/-- A concept of the data is selected as well when it is added, also a second time. -/
theorem addConcept (h : data.Selects ids wanted g)
    (hd : data.concepts.get? concept.id = some concept) :
    data.Selects (fun id => ids id ∨ id = concept.id) wanted (g.addConcept concept) where
  wellFormed := h.wellFormed.addConcept concept
  concepts_iff id other := by
    have hlaid : g.laidOver concept = concept := by
      unfold laidOver concept?
      cases he : g.concepts.get? concept.id with
      | none => rfl
      | some existing =>
        have hsame := ((h.concepts_iff _ _).mp he).1
        rw [hd] at hsame
        cases hsame
        exact concept.overlay_self
    rw [get?_addConcept, hlaid]
    by_cases same : concept.id = id
    · subst same
      rw [if_pos rfl, hd, and_iff_left (.inr rfl)]
    · rw [if_neg same, h.concepts_iff, or_iff_left (Ne.symm same)]
  relations_iff := h.relations_iff

/-- Concepts of the data are selected as well when they are added. -/
theorem addConcepts {concepts : List Concept} (h : data.Selects ids wanted g)
    (hd : ∀ concept ∈ concepts, data.concepts.get? concept.id = some concept) :
    data.Selects (fun id => ids id ∨ ∃ concept ∈ concepts, concept.id = id) wanted
      (g.addConcepts concepts) := by
  induction concepts generalizing g ids with
  | nil => exact h.congr (fun id _ => by simp) fun _ _ _ => Iff.rfl
  | cons head rest ih =>
    obtain ⟨hhead, hrest⟩ := List.forall_mem_cons.mp hd
    refine (ih (h.addConcept hhead) hrest).congr (fun id _ => ?_) fun _ _ _ => Iff.rfl
    rw [List.exists_mem_cons_iff, or_assoc, eq_comm]

/-- A relation of the data between selected concepts is added as it is. -/
theorem addRelation (h : data.Selects ids wanted g) (hw : data.WellFormed)
    (hd : data.relations.get? relation.id = some relation)
    (hs : g.hasConcept relation.triple.source = true)
    (ht : g.hasConcept relation.triple.target = true) :
    ∃ next, g.addRelation relation = .ok next ∧
      data.Selects ids (fun other => wanted other ∨ other = relation) next := by
  have hstored : ∀ stored, g.relations.get? relation.id = some stored → stored = relation := by
    intro stored hg
    have hsame := ((h.relations_iff _ _).mp hg).1
    rw [hd] at hsame
    exact (Option.some.inj hsame).symm
  have hadded : ∃ next, g.addRelation relation = .ok next := by
    rw [addRelation_of_ends hs ht]
    cases hg : g.relations.get? relation.id with
    | none => exact ⟨_, rfl⟩
    | some stored => exact ⟨_, if_pos (congrArg Relation.triple (hstored stored hg))⟩
  obtain ⟨next, hnext⟩ := hadded
  have hentered : next.relations.get? relation.id = some relation := by
    rw [get?_addRelation_annotated hnext, annotated, relation?]
    cases hg : g.relations.get? relation.id with
    | none => rfl
    | some stored =>
      obtain rfl := hstored stored hg
      exact congrArg some (Relation.annotate_eq_right.mpr ⟨rfl, rfl, fun _ hkey => hkey⟩)
  refine ⟨next, hnext, h.wellFormed.addRelation hnext, ?_, fun id other => ?_⟩
  · rw [addRelation_concepts hnext]
    exact h.concepts_iff
  · by_cases same : relation.id = id
    · subst same
      rw [hentered, hd]
      exact ⟨fun he => ⟨he, .inr (Option.some.inj he).symm⟩, fun he => he.1⟩
    · rw [get?_addRelation_of_ne hnext same, h.relations_iff]
      refine and_congr_right fun hother => (or_iff_left ?_).symm
      rintro rfl
      exact same (hw.relation_id id _ hother)

/-- Relations of the data between selected concepts are added as they are. -/
theorem addRelations {relations : List Relation} (h : data.Selects ids wanted g)
    (hw : data.WellFormed)
    (hd : ∀ relation ∈ relations, data.relations.get? relation.id = some relation)
    (he : ∀ relation ∈ relations, g.hasConcept relation.triple.source = true ∧
      g.hasConcept relation.triple.target = true) :
    ∃ all, (g.addRelations relations).toExcept = .ok all ∧
      data.Selects ids (fun other => wanted other ∨ other ∈ relations) all := by
  induction relations generalizing g wanted with
  | nil => exact ⟨g, rfl, h.congr (fun _ _ => Iff.rfl) fun _ other _ => by simp⟩
  | cons head rest ih =>
    obtain ⟨hhead, hrest⟩ := List.forall_mem_cons.mp hd
    obtain ⟨hends, hothers⟩ := List.forall_mem_cons.mp he
    obtain ⟨next, hadded, hnext⟩ := h.addRelation hw hhead hends.1 hends.2
    have hthere : ∀ relation ∈ rest, next.hasConcept relation.triple.source = true ∧
        next.hasConcept relation.triple.target = true := by
      unfold hasConcept
      rw [addRelation_concepts hadded]
      exact hothers
    obtain ⟨all, hall, hselects⟩ := ih hnext hrest hthere
    refine ⟨all, addRelations_cons_eq_ok.mpr ⟨next, hadded, hall⟩, hselects.congr (fun _ _ => Iff.rfl)
      fun _ other _ => ?_⟩
    rw [List.mem_cons, or_assoc]

/-- Two selections are merged to one of what is in either. -/
theorem merge (h : data.Selects ids wanted g) (h' : data.Selects ids' wanted' g')
    (hw : data.WellFormed) : ∃ merged, (g.merge g').toExcept = .ok merged ∧
      data.Selects (fun id => ids id ∨ ids' id) (fun relation => wanted relation ∨ wanted' relation)
        merged := by
  have hconcepts : ∀ concept ∈ g'.conceptList, data.concepts.get? concept.id = some concept :=
    fun concept hc => ((h'.concepts_iff _ _).mp (h'.wellFormed.mem_conceptList.mp hc)).1
  have hrelations : ∀ relation ∈ g'.relationList, data.relations.get? relation.id = some relation :=
    fun relation hr => ((h'.relations_iff _ _).mp (h'.wellFormed.mem_relationList.mp hr)).1
  have hends : ∀ relation ∈ g'.relationList,
      (g.addConcepts g'.conceptList).hasConcept relation.triple.source = true ∧
        (g.addConcepts g'.conceptList).hasConcept relation.triple.target = true := by
    intro relation hr
    have hg := h'.wellFormed.mem_relationList.mp hr
    simp only [hasConcept_addConcepts, h'.wellFormed.exists_mem_conceptList]
    exact ⟨.inl (h'.wellFormed.source_mem _ _ hg), .inl (h'.wellFormed.target_mem _ _ hg)⟩
  obtain ⟨merged, hmerged, hselects⟩ := (h.addConcepts hconcepts).addRelations hw hrelations hends
  refine ⟨merged, hmerged, hselects.congr (fun id hd => ?_) fun id relation hd => ?_⟩
  · rw [h'.wellFormed.exists_mem_conceptList, h'.hasConcept_iff, and_iff_right hd]
  · rw [h'.wellFormed.mem_relationList, h'.relations_iff, hw.relation_id id relation hd,
      and_iff_right hd]

end Selects

end KnowledgeGraph.Graph
