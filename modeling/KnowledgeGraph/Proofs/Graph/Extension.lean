import KnowledgeGraph.Proofs.Graph.Merging

/-!
# Extended graphs

A graph that others are merged into keeps its concepts and relations; they may be told otherwise, but no
member of their metadata is lost. Main statement: merging such an extension into the graph that it
extends is never refused and gives the extension, of which nothing old shows through.
-/

namespace KnowledgeGraph

/-- A concept shows nothing of one that it is laid over, with the same id and no further metadata. -/
theorem Concept.overlay_eq_right {concept other : Concept} :
    concept.overlay other = other ↔ concept.id = other.id ∧
      ∀ key, concept.metadata.contains key = true → other.metadata.contains key = true := by
  rw [← Dict.extend_eq_right]
  cases concept
  cases other
  simp [overlay]

/-- A relation shows nothing of one with the same id and triple and no further metadata. -/
theorem Relation.annotate_eq_right {relation other : Relation} :
    relation.annotate other.metadata = other ↔
      relation.id = other.id ∧ relation.triple = other.triple ∧
      ∀ key, relation.metadata.contains key = true → other.metadata.contains key = true := by
  rw [← Dict.extend_eq_right]
  cases relation
  cases other
  simp [annotate]

/-- A concept over the one that is there, if there is one. -/
def Concept.over (existing : Option Concept) (concept : Concept) : Concept :=
  match existing with
  | some existing => existing.overlay concept
  | none => concept

/-- A relation with the metadata of the one that is there, if there is one. -/
def Relation.over (existing : Option Relation) (relation : Relation) : Relation :=
  match existing with
  | none => relation
  | some existing => existing.annotate relation.metadata

namespace Graph

variable {g g' g'' other : Graph} {concept : Concept} {relation : Relation}

/-- A graph has the concepts and relations of another one, and of each all metadata members. -/
structure ExtendedBy (g g' : Graph) : Prop where
  /-- A concept is there and shows nothing of the other one. -/
  concept : ∀ id old, g.concepts.get? id = some old →
    ∃ new, g'.concepts.get? id = some new ∧ old.overlay new = new
  /-- A relation is there, says the same and shows nothing of the other one. -/
  relation : ∀ id old, g.relations.get? id = some old →
    ∃ new, g'.relations.get? id = some new ∧ old.annotate new.metadata = new

namespace ExtendedBy

/-- A graph extends itself. -/
theorem refl (g : Graph) : g.ExtendedBy g where
  concept _ old hg := ⟨old, hg, old.overlay_self⟩
  relation _ old hg := ⟨old, hg, Relation.annotate_eq_right.mpr ⟨rfl, rfl, fun _ hk => hk⟩⟩

/-- What extends an extension extends the graph. -/
theorem trans (h : g.ExtendedBy g') (h' : g'.ExtendedBy g'') : g.ExtendedBy g'' where
  concept id old hg := by
    obtain ⟨middle, hm, hover⟩ := h.concept id old hg
    obtain ⟨new, hn, hover'⟩ := h'.concept id middle hm
    obtain ⟨hid, hkeys⟩ := Concept.overlay_eq_right.mp hover
    obtain ⟨hid', hkeys'⟩ := Concept.overlay_eq_right.mp hover'
    exact ⟨new, hn, Concept.overlay_eq_right.mpr
      ⟨hid.trans hid', fun key hk => hkeys' key (hkeys key hk)⟩⟩
  relation id old hg := by
    obtain ⟨middle, hm, hover⟩ := h.relation id old hg
    obtain ⟨new, hn, hover'⟩ := h'.relation id middle hm
    obtain ⟨hid, htriple, hkeys⟩ := Relation.annotate_eq_right.mp hover
    obtain ⟨hid', htriple', hkeys'⟩ := Relation.annotate_eq_right.mp hover'
    exact ⟨new, hn, Relation.annotate_eq_right.mpr
      ⟨hid.trans hid', htriple.trans htriple', fun key hk => hkeys' key (hkeys key hk)⟩⟩

/-- A concept that is added extends the graph. -/
theorem addConcept (g : Graph) (concept : Concept) : g.ExtendedBy (g.addConcept concept) where
  concept id old hg := by
    rw [get?_addConcept]
    split
    next same =>
      subst same
      refine ⟨g.laidOver concept, rfl, ?_⟩
      unfold laidOver concept?
      rw [hg]
      exact Concept.overlay_eq_right.mpr ⟨rfl, fun key hk => Dict.contains_extend_left hk⟩
    next => exact ⟨old, hg, old.overlay_self⟩
  relation := (refl g).relation

/-- A relation that is added extends the graph. -/
theorem addRelation (h : g.addRelation relation = .ok g') : g.ExtendedBy g' where
  concept := by
    rw [addRelation_concepts h]
    exact (refl g).concept
  relation id old hg := by
    by_cases same : relation.id = id
    · subst same
      refine ⟨g.annotated relation, get?_addRelation_annotated h, ?_⟩
      unfold annotated relation?
      rw [hg]
      exact Relation.annotate_eq_right.mpr ⟨rfl, rfl, fun key hk => Dict.contains_extend_left hk⟩
    · rw [get?_addRelation_of_ne h same]
      exact (refl g).relation id old hg

/-- Concepts that are added extend the graph. -/
theorem addConcepts (g : Graph) (concepts : List Concept) :
    g.ExtendedBy (g.addConcepts concepts) := by
  induction concepts generalizing g with
  | nil => exact refl g
  | cons head rest ih => exact (addConcept g head).trans (ih _)

/-- Relations that are added extend the graph, also where one is refused. -/
theorem addRelations (g : Graph) (relations : List Relation) :
    g.ExtendedBy (g.addRelations relations).graph := by
  induction relations generalizing g with
  | nil => exact refl g
  | cons head rest ih =>
    rw [Graph.addRelations]
    cases ha : g.addRelation head with
    | ok next => exact (addRelation ha).trans (ih next)
    | error fault => exact refl g

/-- A graph that is merged into another one extends it, also where the merging stops. -/
theorem merge (g other : Graph) : g.ExtendedBy (g.merge other).graph :=
  (addConcepts g other.conceptList).trans (addRelations _ other.relationList)

/-- An extension has the ids of the graph. -/
theorem contains_concept (h : g.ExtendedBy g') (id : String)
    (hc : g.concepts.contains id = true) : g'.concepts.contains id = true := by
  obtain ⟨old, hg⟩ := Dict.contains_iff.mp hc
  obtain ⟨new, hn, -⟩ := h.concept id old hg
  exact Dict.contains_of_get? hn

/-- It has its relation ids as well. -/
theorem contains_relation (h : g.ExtendedBy g') (id : String)
    (hr : g.relations.contains id = true) : g'.relations.contains id = true := by
  obtain ⟨old, hg⟩ := Dict.contains_iff.mp hr
  obtain ⟨new, hn, -⟩ := h.relation id old hg
  exact Dict.contains_of_get? hn

/-- A concept of an extension stays when it is laid over what the graph has. -/
theorem concept_over (h : g.ExtendedBy g') {id : String} (hn : g'.concepts.get? id = some concept) :
    Concept.over (g.concepts.get? id) concept = concept := by
  cases hg : g.concepts.get? id with
  | none => rfl
  | some old =>
    obtain ⟨new, hnew, hover⟩ := h.concept id old hg
    rw [hn] at hnew
    cases hnew
    exact hover

/-- So does a relation. -/
theorem relation_over (h : g.ExtendedBy g') {id : String}
    (hn : g'.relations.get? id = some relation) :
    Relation.over (g.relations.get? id) relation = relation := by
  cases hg : g.relations.get? id with
  | none => rfl
  | some old =>
    obtain ⟨new, hnew, hover⟩ := h.relation id old hg
    rw [hn] at hnew
    cases hnew
    exact hover

/-- An extension says under each id what the graph says under it. -/
theorem keptBy (h : g.ExtendedBy g') : g.KeptBy g' := by
  rintro id triple ⟨old, hg, ht⟩
  obtain ⟨new, hn, hover⟩ := h.relation id old hg
  exact ⟨new, hn, (Relation.annotate_eq_right.mp hover).2.1.symm.trans ht⟩

end ExtendedBy

/-- Concepts that are added are laid over those that are there. -/
theorem addConcepts_concepts (g : Graph) (concepts : List Concept) :
    (g.addConcepts concepts).concepts = g.concepts.layAll (·.id) Concept.over concepts := by
  induction concepts generalizing g with
  | nil => rfl
  | cons head rest ih =>
    rw [addConcepts, List.foldl_cons, ← addConcepts, ih, Dict.layAll, Dict.layAll, List.foldl_cons]
    rfl

/-- An extension that is merged into the graph that it extends is the result. -/
theorem ExtendedBy.merge_eq (h : g.ExtendedBy g') (hg : g.WellFormed) (hg' : g'.WellFormed) :
    g.merge g' = ⟨g', none⟩ := by
  obtain ⟨merged, hm, -⟩ := h.keptBy.merge hg' fun _ _ hsaid => hsaid
  have hmerged : (g.merge g').graph = merged := (toExcept_eq_ok.mp hm).2
  have hconcepts : merged.concepts = g'.concepts := by
    rw [← hmerged, Graph.merge, addRelations_concepts, addConcepts_concepts, conceptList,
      Dict.layAll_values hg'.concept_id h.contains_concept fun _ _ hn => h.concept_over hn]
    exact Dict.map_eq_self.mpr fun _ _ _ => rfl
  have hrelations : merged.relations = g'.relations := by
    ext id : 1
    cases hn : g'.relations.get? id with
    | none =>
      rw [← hmerged, get?_merge_of_none hg' hn]
      exact Dict.get?_eq_none.mpr fun hr => Dict.get?_eq_none.mp hn (h.contains_relation id hr)
    | some relation =>
      rw [get?_merge_of_some hg' hm hn]
      have hover := h.relation_over hn
      rw [← hg'.relation_id id relation hn] at hover
      exact congrArg some hover
  have hwell : merged.WellFormed := hmerged ▸ hg.merge g'
  rw [eq_mk_of_toExcept hm, hwell.eq_of_parts hg' hconcepts hrelations]

end Graph

end KnowledgeGraph
