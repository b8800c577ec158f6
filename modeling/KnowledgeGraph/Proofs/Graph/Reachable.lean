import KnowledgeGraph.FreshId
import KnowledgeGraph.Proofs.Graph.Parts
import KnowledgeGraph.Proofs.Outline.Denotation

/-!
# Reachable graphs

Graphs come from nothing, from outlines and from records, and operations lead from one to the next. Each
operation may come to its end, be refused at once or stop half-way; what it leaves is the graph that the
next one starts from. Main statement: the graphs that are reached in this way are just the well-formed
ones.
-/

namespace KnowledgeGraph.Graph

/-- What can be done to a graph without another one. -/
inductive Operation where
  /-- To add a concept; the attributes are laid over those of a concept with the same id. -/
  | addConcept (concept : Concept)
  /-- To add a concept under an id unless one has the id. -/
  | addConceptIfAbsent (id : String) (concept : Concept)
  /-- To add a known concept with a description under a fresh id. -/
  | addFresh (ids : IdSource) (description : String)
  /-- To add a relation. -/
  | addRelation (relation : Relation)
  /-- To add the relation of a triple unless some relation says it. -/
  | addTripleIfAbsent (triple : Triple)
  /-- To remove the relation with an id. -/
  | removeRelation (id : String)
  /-- To remove a concept and the relations that touch it. -/
  | removeConcept (id : String)
  /-- To put a concept in the place of another one. -/
  | substitute (placeholder : String) (replacement : Concept)
  /-- To keep the part that concepts span. -/
  | part (ids : List String)
  /-- To keep the part that the targets of a type span. -/
  | definition (type : String)
  /-- To keep the part that the targets of a type that leave a concept span. -/
  | definitionOf (root type : String)

/-- What an operation leaves that changes nothing when it is refused. -/
def orUnchanged (g : Graph) : Except Fault Graph → Edited
  | .ok changed => ⟨changed, none⟩
  | .error fault => ⟨g, some fault⟩

/-- What an operation leaves. -/
def perform (g : Graph) : Operation → Edited
  | .addConcept concept => ⟨g.addConcept concept, none⟩
  | .addConceptIfAbsent id concept => ⟨(g.addConceptIfAbsent id concept).2, none⟩
  | .addFresh ids description => ⟨(g.addFresh ids description).2.2, none⟩
  | .addRelation relation => g.orUnchanged (g.addRelation relation)
  | .addTripleIfAbsent triple => g.orUnchanged ((g.addTripleIfAbsent triple).map (·.2))
  | .removeRelation id => ⟨(g.removeRelation id).2, none⟩
  | .removeConcept id => g.orUnchanged ((g.removeConcept id).map (·.2))
  | .substitute placeholder replacement => g.substitute placeholder replacement
  | .part ids => ⟨g.part ids, none⟩
  | .definition type => ⟨g.definition type, none⟩
  | .definitionOf root type => ⟨g.definitionOf root type, none⟩

/-- A graph that is reached from nothing, from outlines and from records. -/
inductive Reachable : Graph → Prop where
  /-- The empty graph is there from the beginning. -/
  | empty : Reachable .empty
  /-- An outline that can be read gives a graph. -/
  | ofOutline {outline : Outline} {g : Graph} (read : outline.toGraph = .ok g) : Reachable g
  /-- A record whose relations fit gives a graph. -/
  | ofRecord {record : GraphRecord} {g : Graph} (read : record.toGraph = .ok g) : Reachable g
  /-- An operation leaves a graph, also where it is refused. -/
  | perform {g : Graph} (operation : Operation) (before : Reachable g) :
    Reachable (g.perform operation).graph
  /-- One graph merged into another leaves a graph, also where it stops. -/
  | merge {g other : Graph} (before : Reachable g) (added : Reachable other) :
    Reachable (g.merge other).graph

variable {g : Graph}

/-- What is left of a well-formed graph is well-formed if what an operation that comes to its end changes
it to is. -/
theorem WellFormed.orUnchanged {result : Except Fault Graph} (h : g.WellFormed)
    (hr : ∀ changed, result = .ok changed → changed.WellFormed) :
    (g.orUnchanged result).graph.WellFormed := by
  cases result with
  | ok changed => exact hr changed rfl
  | error fault => exact h

/-- An operation leaves a well-formed graph, also where it is refused. -/
theorem WellFormed.perform (h : g.WellFormed) (operation : Operation) :
    (g.perform operation).graph.WellFormed := by
  cases operation with
  | addConcept concept => exact h.addConcept concept
  | addConceptIfAbsent id concept => exact h.addConceptIfAbsent id concept
  | addFresh ids description => exact h.insertConcept rfl
  | addRelation relation => exact h.orUnchanged fun changed ha => h.addRelation ha
  | addTripleIfAbsent triple =>
    refine h.orUnchanged fun changed ha => ?_
    obtain ⟨⟨created, g'⟩, hadd, rfl⟩ := exists_of_map_eq_ok ha
    exact h.addTripleIfAbsent hadd
  | removeRelation id => exact h.removeRelation id
  | removeConcept id =>
    refine h.orUnchanged fun changed hr => ?_
    obtain ⟨⟨removed, g'⟩, hremove, rfl⟩ := exists_of_map_eq_ok hr
    exact h.removeConcept hremove
  | substitute placeholder replacement => exact h.substitute_graph placeholder replacement
  | part ids => exact h.part ids
  | definition type => exact h.part _
  | definitionOf root type => exact h.part _

/-- The graph of a record is well-formed. -/
theorem wellFormed_ofRecord {record : GraphRecord} (h : record.toGraph = .ok g) : g.WellFormed := by
  rw [← (toExcept_eq_ok.mp h).2]
  exact (wellFormed_empty.addConcepts _).addRelations _

/-- The graph of an outline is well-formed. -/
theorem wellFormed_ofOutline {outline : Outline} (h : outline.toGraph = .ok g) : g.WellFormed :=
  (Outline.toGraph_eq_ok_iff.mp h).2.shaped.toWellFormed

/-- A well-formed graph is that of its record. -/
theorem WellFormed.toGraph_ofGraph (h : g.WellFormed) : (GraphRecord.ofGraph g).toGraph = .ok g := by
  unfold GraphRecord.toGraph GraphRecord.ofGraph
  rw [h.rebuild]
  rfl

/-- Every graph that is reached is well-formed. -/
theorem Reachable.wellFormed (h : Reachable g) : g.WellFormed := by
  induction h with
  | empty => exact wellFormed_empty
  | ofOutline read => exact wellFormed_ofOutline read
  | ofRecord read => exact wellFormed_ofRecord read
  | perform operation _ ih => exact ih.perform operation
  | merge _ _ ih _ => exact ih.merge _

/-- The graphs that are reached by operations that come to their end, are refused or stop half-way are
just those in which every concept and relation stands under its own id, relations lead between concepts of
the graph, and the index holds just the relations whose ids are not those of their triples. -/
theorem reachable_iff_wellFormed : Reachable g ↔ g.WellFormed :=
  ⟨Reachable.wellFormed, fun h => .ofRecord h.toGraph_ofGraph⟩

end KnowledgeGraph.Graph
