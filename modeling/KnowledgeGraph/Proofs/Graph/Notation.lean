import KnowledgeGraph.Proofs.Graph.Parts

/-!
# Graphs of the shape of notation

Text says of a concept no more than its id and of a relation no more than its triple. Graphs that hold no
more are closed under every operation on graphs: under parts, substitution and merging as well.
-/

namespace KnowledgeGraph

namespace Concept

/-- A reference stands for a concept with that id. -/
@[simp] theorem ofReference_id (reference : String) : (ofReference reference).id = reference := by
  unfold ofReference
  split <;> rfl

/-- A reference stands for a concept that it describes. -/
@[simp] theorem ofReference_description (reference : String) :
    (ofReference reference).description = reference := by
  unfold ofReference
  split <;> rfl

/-- A marked reference stands for an unknown concept. -/
@[simp] theorem ofReference_isUnknown (reference : String) :
    (ofReference reference).isUnknown = isMarked reference := by
  unfold ofReference
  split
  next marked => exact marked.symm
  next unmarked => exact (Bool.eq_false_iff.mpr unmarked).symm

/-- A reference says nothing more of a concept. -/
@[simp] theorem ofReference_metadata (reference : String) :
    (ofReference reference).metadata = .empty := by
  unfold ofReference
  split <;> rfl

/-- A concept of which no more is known than a reference says is the one the reference stands for. -/
theorem eq_ofReference {concept : Concept} {reference : String} (hi : concept.id = reference)
    (hd : concept.description = reference) (hu : concept.isUnknown = isMarked reference)
    (hm : concept.metadata = .empty) : concept = ofReference reference := by
  rw [← ofReference_isUnknown] at hu
  cases concept
  cases hr : ofReference reference
  have hi' := ofReference_id reference
  have hd' := ofReference_description reference
  have hm' := ofReference_metadata reference
  rw [hr] at hi' hd' hm' hu
  simp_all

/-- Laying what a reference says over the same changes nothing. -/
theorem overlay_ofReference (reference : String) :
    (ofReference reference).overlay (ofReference reference) = ofReference reference := by
  refine eq_ofReference (ofReference_id _) (ofReference_description _) (ofReference_isUnknown _) ?_
  rw [overlay, ofReference_metadata, Dict.extend_empty]

end Concept

namespace Relation

/-- A relation of which no more is known than a triple says is the relation of the triple. -/
theorem eq_ofTriple {relation : Relation} (hi : relation.id = relation.triple.id)
    (hm : relation.metadata = .empty) : relation = ofTriple relation.triple := by
  cases relation
  simp_all [ofTriple]

/-- The relation of a triple is not named. -/
theorem isNamed_ofTriple (triple : Triple) : (ofTriple triple).isNamed = false := by
  simp [isNamed, ofTriple]

/-- Rewiring the relation of a triple gives the relation of the renamed triple. -/
theorem rewire_ofTriple (triple : Triple) (old new : String) :
    (ofTriple triple).rewire old new = ofTriple (triple.rename old new) := by
  unfold rewire
  rw [isNamed_ofTriple]
  rfl

end Relation

namespace Graph

variable {g g' other : Graph} {concept : Concept} {relation : Relation} {id : String}

/-- A well-formed graph of which ids and triples say everything: a concept is unknown when its id is
marked, is described by its id and has no metadata; a relation has the id of its triple and no metadata. -/
structure NotationShaped (g : Graph) : Prop extends WellFormed g where
  /-- A concept is unknown when its id is marked. -/
  concept_mark : ∀ id concept, g.concepts.get? id = some concept →
    concept.isUnknown = Concept.isMarked id
  /-- A concept is described by its id. -/
  concept_description : ∀ id concept, g.concepts.get? id = some concept → concept.description = id
  /-- A concept has no metadata. -/
  concept_metadata : ∀ id concept, g.concepts.get? id = some concept → concept.metadata = .empty
  /-- A relation has the id of its triple. -/
  relation_name : ∀ id relation, g.relations.get? id = some relation →
    relation.id = relation.triple.id
  /-- A relation has no metadata. -/
  relation_metadata : ∀ id relation, g.relations.get? id = some relation → relation.metadata = .empty

namespace NotationShaped

/-- A concept is the one that its id stands for. -/
theorem concept_eq (h : g.NotationShaped) (hg : g.concepts.get? id = some concept) :
    concept = .ofReference id :=
  Concept.eq_ofReference (h.concept_id id concept hg) (h.concept_description id concept hg)
    (h.concept_mark id concept hg) (h.concept_metadata id concept hg)

/-- A relation is that of its triple. -/
theorem relation_eq (h : g.NotationShaped) (hg : g.relations.get? id = some relation) :
    relation = .ofTriple relation.triple :=
  Relation.eq_ofTriple (h.relation_name id relation hg) (h.relation_metadata id relation hg)

/-- A well-formed graph of referenced concepts and relations of triples has the shape of notation. -/
theorem of_eq (h : g.WellFormed)
    (hc : ∀ id concept, g.concepts.get? id = some concept → concept = .ofReference id)
    (hr : ∀ id relation, g.relations.get? id = some relation → relation = .ofTriple relation.triple) :
    g.NotationShaped where
  toWellFormed := h
  concept_mark id concept hg := by rw [hc id concept hg, Concept.ofReference_isUnknown]
  concept_description id concept hg := by rw [hc id concept hg, Concept.ofReference_description]
  concept_metadata id concept hg := by rw [hc id concept hg, Concept.ofReference_metadata]
  relation_name id relation hg := congrArg Relation.id (hr id relation hg)
  relation_metadata id relation hg := congrArg Relation.metadata (hr id relation hg)

/-- What stands under the id of a concept is told by the id. -/
theorem get?_concept (h : g.NotationShaped) (hc : g.hasConcept id = true) :
    g.concepts.get? id = some (.ofReference id) := by
  obtain ⟨concept, hg⟩ := hasConcept_iff.mp hc
  rw [hg, h.concept_eq hg]

/-- A required concept is the one that its id stands for. -/
theorem requireConcept_eq (h : g.NotationShaped) (hr : g.requireConcept id = .ok concept) :
    concept = .ofReference id :=
  h.concept_eq (requireConcept_eq_ok.mp hr)

/-- The listed concepts are told by their ids. -/
theorem mem_conceptList (h : g.NotationShaped) :
    concept ∈ g.conceptList ↔ g.hasConcept concept.id = true ∧ concept = .ofReference concept.id := by
  rw [h.toWellFormed.mem_conceptList]
  constructor
  · intro hg
    exact ⟨Dict.contains_of_get? hg, h.concept_eq hg⟩
  · rintro ⟨hc, he⟩
    rw [h.get?_concept hc, ← he]

/-- Some relation says a triple when the relation of the triple stands under its id. -/
theorem says_iff (h : g.NotationShaped) {triple : Triple} :
    (∃ relation ∈ g.relationList, relation.triple = triple) ↔
      g.relations.get? triple.id = some (.ofTriple triple) := by
  constructor
  · rintro ⟨relation, hr, rfl⟩
    have hg := h.mem_relationList.mp hr
    have he := h.relation_eq hg
    rwa [h.relation_name _ _ hg, he] at hg
  · intro hg
    exact ⟨.ofTriple triple, Dict.mem_values.mpr ⟨_, hg⟩, rfl⟩

/-- The empty graph has the shape of notation. -/
theorem empty : Graph.empty.NotationShaped :=
  .of_eq wellFormed_empty nofun nofun

/-- A graph with only concepts and relations of one with the shape of notation has it too. -/
theorem of_sub (h : g.NotationShaped) (hw : g'.WellFormed)
    (hc : ∀ id concept, g'.concepts.get? id = some concept → g.concepts.get? id = some concept)
    (hr : ∀ id relation, g'.relations.get? id = some relation →
      g.relations.get? id = some relation) : g'.NotationShaped :=
  .of_eq hw (fun id concept hg => h.concept_eq (hc id concept hg))
    fun id relation hg => h.relation_eq (hr id relation hg)

/-- The concept a reference stands for may be set under it. -/
theorem insertConcept (h : g.NotationShaped) (id : String) :
    NotationShaped { g with concepts := g.concepts.insert id (.ofReference id) } := by
  refine .of_eq (h.toWellFormed.insertConcept (Concept.ofReference_id id)) ?_
    fun key relation hg => h.relation_eq hg
  intro key concept hg
  rw [Dict.get?_insert] at hg
  split at hg
  next same =>
    cases hg
    rw [same]
  next => exact h.concept_eq hg

/-- Adding the concept a reference stands for sets it under the reference. -/
theorem addConcept_eq (h : g.NotationShaped) (id : String) :
    g.addConcept (.ofReference id) = { g with concepts := g.concepts.insert id (.ofReference id) } := by
  unfold Graph.addConcept concept?
  rw [Concept.ofReference_id]
  cases hg : g.concepts.get? id with
  | none => rfl
  | some existing =>
    simp only
    rw [h.concept_eq hg, Concept.overlay_ofReference]

/-- Adding the concept a reference stands for keeps the shape. -/
theorem addConcept (h : g.NotationShaped) (id : String) :
    (g.addConcept (.ofReference id)).NotationShaped := by
  rw [h.addConcept_eq]
  exact h.insertConcept id

/-- Adding concepts that references stand for keeps the shape. -/
theorem addConcepts {concepts : List Concept} (h : g.NotationShaped)
    (hc : ∀ concept ∈ concepts, concept = .ofReference concept.id) :
    (g.addConcepts concepts).NotationShaped := by
  induction concepts generalizing g with
  | nil => exact h
  | cons concept rest ih =>
    have hshaped := h.addConcept concept.id
    rw [← hc concept List.mem_cons_self] at hshaped
    exact ih hshaped fun other ho => hc other (List.mem_cons_of_mem _ ho)

/-- Adding the concept a reference stands for, unless it is there, keeps the shape. -/
theorem addConceptIfAbsent (h : g.NotationShaped) (id : String) :
    (g.addConceptIfAbsent id (.ofReference id)).2.NotationShaped := by
  have hsame : { Concept.ofReference id with id } = Concept.ofReference id :=
    Concept.eq_ofReference rfl (Concept.ofReference_description id)
      (Concept.ofReference_isUnknown id) (Concept.ofReference_metadata id)
  unfold Graph.addConceptIfAbsent
  split
  · exact h
  · rw [hsame]
    exact h.insertConcept id

/-- Adding the relation of a triple keeps the shape. -/
theorem addRelation {triple : Triple} (h : g.NotationShaped)
    (ha : g.addRelation (.ofTriple triple) = .ok g') : g'.NotationShaped := by
  refine .of_eq (h.toWellFormed.addRelation ha) ?_ ?_
  · rw [addRelation_concepts ha]
    exact fun id concept hg => h.concept_eq hg
  · intro id relation hg
    rcases addRelation_eq_ok ha with ⟨-, rfl⟩ | ⟨existing, he, -, rfl⟩
    · rw [get?_putRelation] at hg
      split at hg
      next =>
        cases hg
        rfl
      next => exact h.relation_eq hg
    · have hkept : existing.annotate (Relation.ofTriple triple).metadata = existing := rfl
      rw [hkept, Dict.get?_insert] at hg
      split at hg
      next =>
        cases hg
        exact h.relation_eq he
      next => exact h.relation_eq hg

/-- Adding relations of triples keeps the shape, also where it stops. -/
theorem addRelations {relations : List Relation} (h : g.NotationShaped)
    (hr : ∀ relation ∈ relations, relation = .ofTriple relation.triple) :
    (g.addRelations relations).graph.NotationShaped := by
  induction relations generalizing g with
  | nil => exact h
  | cons relation rest ih =>
    rw [Graph.addRelations]
    cases ha : g.addRelation relation with
    | ok next =>
      rw [hr relation List.mem_cons_self] at ha
      exact ih (h.addRelation ha) fun other ho => hr other (List.mem_cons_of_mem _ ho)
    | error fault => exact h

/-- Adding the relation of a triple, unless some relation says it, keeps the shape. -/
theorem addTripleIfAbsent {triple : Triple} {created : Bool} (h : g.NotationShaped)
    (ha : g.addTripleIfAbsent triple = .ok (created, g')) : g'.NotationShaped := by
  rcases addTripleIfAbsent_eq_ok ha with ⟨-, rfl⟩ | ⟨-, hadd⟩
  · exact h
  · exact h.addRelation hadd

/-- Merging two graphs with the shape of notation keeps it, also where it stops. -/
theorem merge (h : g.NotationShaped) (ho : other.NotationShaped) :
    (g.merge other).graph.NotationShaped := by
  refine (h.addConcepts ?_).addRelations ?_
  · intro concept hc
    exact (ho.mem_conceptList.mp hc).2
  · intro relation hr
    exact ho.relation_eq (ho.toWellFormed.mem_relationList.mp hr)

/-- Removing a relation keeps the shape. -/
theorem removeRelation (h : g.NotationShaped) (name : String) :
    (g.removeRelation name).2.NotationShaped := by
  refine h.of_sub (h.toWellFormed.removeRelation name) (fun _ _ hg => hg) ?_
  intro id relation hg
  rw [get?_removeRelation] at hg
  split at hg
  next => cases hg
  next => exact hg

/-- Removing relations keeps the shape. -/
theorem removeRelations (h : g.NotationShaped) (names : List String) :
    (g.removeRelations names).NotationShaped := by
  induction names generalizing g with
  | nil => exact h
  | cons name rest ih => exact ih (h.removeRelation name)

/-- Parts keep the shape. -/
theorem part (h : g.NotationShaped) (ids : List String) : (g.part ids).NotationShaped := by
  refine h.of_sub (h.toWellFormed.part ids) ?_ fun id relation hg => (h.toWellFormed.get?_part.mp hg).1
  intro id concept hg
  rw [h.toWellFormed.part_concepts, Dict.get?_filter, Option.filter_eq_some_iff] at hg
  exact hg.1

/-- Putting the concept of a reference in the place of another one keeps the shape. -/
theorem substitute {placeholder reference : String} (h : g.NotationShaped)
    (hs : (g.substitute placeholder (.ofReference reference)).toExcept = .ok g') :
    g'.NotationShaped := by
  rcases substitute_eq_ok hs with ⟨-, rfl⟩ | ⟨-, hadd⟩
  · exact h.addConcept reference
  · have hvacated : (g.vacated placeholder (.ofReference reference)).NotationShaped := by
      refine .of_eq (h.toWellFormed.vacated _ _) ?_ ?_
      · intro id concept hg
        rw [vacated_eq, get?_addConcept] at hg
        split at hg
        next same =>
          cases hg
          rw [Concept.ofReference_id] at same
          subst same
          unfold laidOver concept?
          rw [Concept.ofReference_id]
          simp only [Dict.get?_erase]
          split
          next existing he =>
            split at he
            next => cases he
            next => rw [h.concept_eq he, Concept.overlay_ofReference]
          next => rfl
        next =>
          rw [Dict.get?_erase] at hg
          split at hg
          next => cases hg
          next => exact h.concept_eq hg
      · intro id relation hg
        exact h.relation_eq (h.toWellFormed.get?_vacated.mp hg).1
    have hrewired : ∀ relation ∈ (g.relationsAt placeholder .both).map
        (·.rewire placeholder (Concept.ofReference reference).id),
        relation = .ofTriple relation.triple := by
      intro relation hr
      obtain ⟨before, hb, rfl⟩ := List.mem_map.mp hr
      have hg := h.toWellFormed.mem_relationList.mp (List.mem_filter.mp hb).1
      rw [h.relation_eq hg, Relation.rewire_ofTriple]
      rfl
    rw [← (toExcept_eq_ok.mp hadd).2]
    exact hvacated.addRelations hrewired

/-- A graph of statements has the shape of notation. -/
theorem ofStatements (references : List String) (triples : List Triple) :
    (Graph.ofStatements references triples).NotationShaped := by
  refine (empty.addConcepts ?_).addRelations ?_
  · intro concept hc
    obtain ⟨reference, -, rfl⟩ := List.mem_map.mp hc
    rw [Concept.ofReference_id]
  · intro relation hr
    obtain ⟨triple, -, rfl⟩ := List.mem_map.mp hr
    rfl

end NotationShaped

end Graph

end KnowledgeGraph
