import KnowledgeGraph.Proofs.Graph.WellFormed

/-!
# Metadata that a graph carries

No operation on graphs makes metadata up: what a concept or relation of the result carries was carried
before or is some of it laid over other. A property that holds where there is no metadata, and of metadata
laid over other metadata if it holds of both, is therefore kept by every operation, also by one that stops
half-way.
-/

namespace KnowledgeGraph.Graph

/-- A property of metadata that lasts while metadata is laid over other metadata. -/
structure Lasting (keep : Dict Json → Prop) : Prop where
  /-- It holds where there is no metadata. -/
  empty : keep .empty
  /-- It holds of metadata with other metadata laid over it. -/
  extend : ∀ metadata other, keep metadata → keep other → keep (metadata.extend other)

/-- All metadata in a graph has a property. -/
structure Carries (g : Graph) (keep : Dict Json → Prop) : Prop where
  /-- The metadata of a concept has it. -/
  concept : ∀ id concept, g.concepts.get? id = some concept → keep concept.metadata
  /-- The metadata of a relation has it. -/
  relation : ∀ id relation, g.relations.get? id = some relation → keep relation.metadata

variable {keep : Dict Json → Prop} {g g' : Graph} {concept : Concept} {relation : Relation}

/-- What a graph carries is seen from its lists. -/
theorem carries_iff : g.Carries keep ↔ (∀ concept ∈ g.conceptList, keep concept.metadata) ∧
    ∀ relation ∈ g.relationList, keep relation.metadata := by
  constructor
  · intro h
    refine ⟨fun concept hm => ?_, fun relation hm => ?_⟩
    · obtain ⟨id, hg⟩ := Dict.mem_values.mp hm
      exact h.concept id concept hg
    · obtain ⟨id, hg⟩ := Dict.mem_values.mp hm
      exact h.relation id relation hg
  · intro h
    exact ⟨fun id concept hg => h.1 concept (Dict.mem_values.mpr ⟨id, hg⟩),
      fun id relation hg => h.2 relation (Dict.mem_values.mpr ⟨id, hg⟩)⟩

instance [DecidablePred keep] : Decidable (g.Carries keep) := decidable_of_iff _ carries_iff.symm

/-- The empty graph carries nothing. -/
theorem carries_empty : Graph.empty.Carries keep := ⟨nofun, nofun⟩

namespace Carries

/-- What has a property has every property that follows from it. -/
theorem imp {other : Dict Json → Prop} (h : g.Carries keep)
    (himp : ∀ metadata, keep metadata → other metadata) : g.Carries other :=
  ⟨fun id concept hg => himp _ (h.concept id concept hg),
    fun id relation hg => himp _ (h.relation id relation hg)⟩

/-- A graph that has no other concepts and relations carries no other metadata. -/
theorem of_sub (h : g.Carries keep)
    (hc : ∀ id concept, g'.concepts.get? id = some concept → g.concepts.get? id = some concept)
    (hr : ∀ id relation, g'.relations.get? id = some relation → g.relations.get? id = some relation) :
    g'.Carries keep :=
  ⟨fun id concept hg => h.concept id concept (hc id concept hg),
    fun id relation hg => h.relation id relation (hr id relation hg)⟩

/-- A concept may be set under an id. -/
theorem insertConcept (h : g.Carries keep) (hc : keep concept.metadata) (id : String) :
    { g with concepts := g.concepts.insert id concept }.Carries keep where
  concept := by
    intro key other hg
    rw [Dict.get?_insert] at hg
    split at hg
    next =>
      cases hg
      exact hc
    next => exact h.concept key other hg
  relation := h.relation

/-- A concept that is added unless its id is taken brings its metadata. -/
theorem addConceptIfAbsent (h : g.Carries keep) (hc : keep concept.metadata) (id : String) :
    (g.addConceptIfAbsent id concept).2.Carries keep := by
  unfold Graph.addConceptIfAbsent
  split
  next => exact h
  next => exact @insertConcept keep g { concept with id } h hc id

/-- A relation may be set under an id, whatever becomes of the index. -/
theorem insertRelation (h : g.Carries keep) (hr : keep relation.metadata) (id : String)
    (named : Dict Unit) :
    { g with relations := g.relations.insert id relation, named }.Carries keep where
  concept := h.concept
  relation := by
    intro key other hg
    rw [Dict.get?_insert] at hg
    split at hg
    next =>
      cases hg
      exact hr
    next => exact h.relation key other hg

/-- A part of the graph carries what the graph carries. -/
theorem part (h : g.Carries keep) (ids : List String) : (g.part ids).Carries keep := by
  have hfold : ∀ (relations : List Relation) (g : Graph), g.Carries keep →
      (∀ relation ∈ relations, keep relation.metadata) →
      (relations.foldl putRelation g).Carries keep := by
    intro relations
    induction relations with
    | nil => exact fun _ hg _ => hg
    | cons head rest ih =>
      intro g hg hr
      obtain ⟨hhead, hrest⟩ := List.forall_mem_cons.mp hr
      exact ih _ (hg.insertRelation hhead _ _) hrest
  refine hfold _ _ ⟨fun id concept hg => ?_, nofun⟩ fun relation hm => ?_
  · rw [Dict.get?_filter, Option.filter_eq_some_iff] at hg
    exact h.concept id concept hg.1
  · exact (carries_iff.mp h).2 relation (List.mem_filter.mp hm).1

/-- What is left of a graph carries what the graph carried. -/
theorem removeRelation (h : g.Carries keep) (id : String) :
    (g.removeRelation id).2.Carries keep := by
  refine h.of_sub (fun _ _ hg => hg) fun key relation hg => ?_
  rw [get?_removeRelation] at hg
  split at hg
  next => cases hg
  next => exact hg

/-- So does what is left when relations are removed one after the other. -/
theorem removeRelations (h : g.Carries keep) (ids : List String) :
    (g.removeRelations ids).Carries keep := by
  induction ids generalizing g with
  | nil => exact h
  | cons id rest ih => exact ih (h.removeRelation id)

section Lasting

variable (hk : Lasting keep)

include hk

/-- A concept is laid over the one with its id. -/
theorem addConcept (h : g.Carries keep) (hc : keep concept.metadata) :
    (g.addConcept concept).Carries keep := by
  refine h.insertConcept ?_ _
  split
  next existing he => exact hk.extend _ _ (h.concept _ existing he) hc
  next => exact hc

/-- Concepts are added one after the other. -/
theorem addConcepts {concepts : List Concept} (h : g.Carries keep)
    (hc : ∀ concept ∈ concepts, keep concept.metadata) : (g.addConcepts concepts).Carries keep := by
  induction concepts generalizing g with
  | nil => exact h
  | cons head rest ih =>
    obtain ⟨hhead, hrest⟩ := List.forall_mem_cons.mp hc
    exact ih (h.addConcept hk hhead) hrest

/-- A relation is entered or annotates the one with its id. -/
theorem addRelation (h : g.Carries keep) (hr : keep relation.metadata)
    (ha : g.addRelation relation = .ok g') : g'.Carries keep := by
  rcases addRelation_eq_ok ha with ⟨-, rfl⟩ | ⟨existing, he, -, rfl⟩
  · exact h.insertRelation hr _ _
  · exact h.insertRelation (hk.extend _ _ (h.relation _ existing he) hr) _ g.named

/-- The relation of a triple has no metadata. -/
theorem addTripleIfAbsent {triple : Triple} {created : Bool} (h : g.Carries keep)
    (ha : g.addTripleIfAbsent triple = .ok (created, g')) : g'.Carries keep := by
  rcases addTripleIfAbsent_eq_ok ha with ⟨-, rfl⟩ | ⟨-, hadd⟩
  · exact h
  · exact h.addRelation hk hk.empty hadd

/-- Relations are added one after the other, also where one is refused. -/
theorem addRelations {relations : List Relation} (h : g.Carries keep)
    (hr : ∀ relation ∈ relations, keep relation.metadata) :
    (g.addRelations relations).graph.Carries keep := by
  induction relations generalizing g with
  | nil => exact h
  | cons head rest ih =>
    obtain ⟨hhead, hrest⟩ := List.forall_mem_cons.mp hr
    rw [Graph.addRelations]
    cases ha : g.addRelation head with
    | error fault => exact h
    | ok next => exact ih (h.addRelation hk hhead ha) hrest

/-- A graph is merged into another one, also where a relation is refused. -/
theorem merge {other : Graph} (h : g.Carries keep) (ho : other.Carries keep) :
    (g.merge other).graph.Carries keep := by
  obtain ⟨hconcepts, hrelations⟩ := carries_iff.mp ho
  exact (h.addConcepts hk hconcepts).addRelations hk hrelations

/-- A concept takes the place of another one, at relations that keep their metadata. -/
theorem substitute {placeholder : String} (h : g.Carries keep) (hc : keep concept.metadata) :
    (g.substitute placeholder concept).graph.Carries keep := by
  have hrewired : ∀ relation ∈ (g.relationsAt placeholder .both).map (·.rewire placeholder concept.id),
      keep relation.metadata := by
    intro relation hm
    obtain ⟨before, hb, rfl⟩ := List.mem_map.mp hm
    exact (carries_iff.mp h).2 before (List.mem_filter.mp hb).1
  unfold Graph.substitute
  split
  next => exact h
  next =>
    split
    next => exact h.addConcept hk hc
    next =>
      simp only
      split
      next => exact h
      next =>
        have hcleared : { g with concepts := g.concepts.erase placeholder }.Carries keep := by
          refine h.of_sub (fun id other hg => ?_) fun _ _ hg => hg
          rw [Dict.get?_erase] at hg
          split at hg
          next => cases hg
          next => exact hg
        exact ((hcleared.addConcept hk hc).removeRelations _).addRelations hk hrewired

end Lasting

end Carries

end KnowledgeGraph.Graph
