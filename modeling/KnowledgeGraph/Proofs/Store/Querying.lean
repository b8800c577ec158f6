import KnowledgeGraph.Proofs.Matching.Selection
import KnowledgeGraph.Store.Basic

/-!
# Queries to a store

What the matches of a query cut out of the stored graph is merged to one graph. As all of it is taken
from one graph as it is there, the merging neither alters nor refuses anything, and a query fails only
where its search does. Main statement: `query_unites_cuts`.
-/

namespace KnowledgeGraph.Store

open Matching (StandsFor Answers findBindings findMatches materialize)

variable {pattern data g : Graph} {ids : String → Prop} {wanted : Relation → Prop}
  {results : List Matching.Match}

/-- Merging what matches cut out selects what any of them does. -/
theorem mergeFound_selects (h : data.Selects ids wanted g) (hd : data.WellFormed)
    (hr : ∀ result ∈ results,
      data.Selects (StandsFor pattern result.binding) (Answers pattern result.binding) result.graph) :
    ∃ merged, mergeFound g (results.map (·.graph)) = .ok merged ∧
      data.Selects (fun id => ids id ∨ ∃ result ∈ results, StandsFor pattern result.binding id)
        (fun relation => wanted relation ∨
          ∃ result ∈ results, Answers pattern result.binding relation) merged := by
  induction results generalizing g ids wanted with
  | nil => exact ⟨g, rfl, h.congr (fun id _ => by simp) fun _ relation _ => by simp⟩
  | cons head rest ih =>
    obtain ⟨hhead, hrest⟩ := List.forall_mem_cons.mp hr
    obtain ⟨next, hnext, hselects⟩ := h.merge hhead hd
    obtain ⟨merged, hmerged, hall⟩ := ih hselects hrest
    refine ⟨merged, ?_, hall.congr (fun id _ => ?_) fun _ relation _ => ?_⟩
    · rw [List.map_cons, mergeFound, hnext]
      exact hmerged
    · rw [List.exists_mem_cons_iff, or_assoc]
    · rw [List.exists_mem_cons_iff, or_assoc]

/-- A binding, whatever it is, cuts something out of the data just when the data has what all query
concepts stand for, and that is these concepts and the relations that say what the query asks for, all as
they are in the data. If a search for the query answers, each binding that it finds cuts something out,
in the same order, and the query to a store of the data answers with the union of these graphs. -/
theorem query_unites_cuts (hq : pattern.WellFormed) (hd : data.WellFormed) :
    (∀ binding : Binding,
      ((∃ cut, materialize false pattern data binding = .ok cut) ↔
        ∀ id, pattern.hasConcept id = true → data.hasConcept (binding.resolve id) = true) ∧
      ∀ cut, materialize false pattern data binding = .ok cut →
        data.Selects (StandsFor pattern binding) (Answers pattern binding) cut) ∧
    ∀ (limits : SearchLimits) (found : List Binding), findBindings limits pattern data = .ok found →
      ∃ results, findMatches ⟨false, limits⟩ pattern data = .ok results ∧
        results.map (·.binding) = found ∧
        (∀ result ∈ results, materialize false pattern data result.binding = .ok result.graph) ∧
        ∀ store : Store, store.load = .ok data →
          ∃ merged, store.query ⟨false, limits⟩ pattern = .ok merged ∧ merged.WellFormed ∧
            (∀ id concept, merged.concepts.get? id = some concept ↔
              ∃ result ∈ results, result.graph.concepts.get? id = some concept) ∧
            ∀ id relation, merged.relations.get? id = some relation ↔
              ∃ result ∈ results, result.graph.relations.get? id = some relation := by
  refine ⟨fun binding => ⟨Matching.exists_materialize_iff hq hd, fun cut hcut =>
    Matching.selects_of_materialize hq hd hcut⟩, fun limits found hfound => ?_⟩
  obtain ⟨results, hresults, hbindings, hcuts⟩ := Matching.findMatches_of_findBindings hq hd hfound
  refine ⟨results, hresults, hbindings, hcuts, fun store hload => ?_⟩
  have hselects := fun result hr => Matching.selects_of_materialize hq hd (hcuts result hr)
  obtain ⟨merged, hmerged, hall⟩ := mergeFound_selects (.empty data) hd hselects
  refine ⟨merged, ?_, hall.wellFormed, fun id concept => ?_, fun id relation => ?_⟩
  · unfold query Matching.matchGraphs
    simp only [hload, hresults, bind, Except.bind]
    exact hmerged
  · rw [hall.concepts_iff, false_or, ← exists_and_left]
    refine exists_congr fun result => ?_
    rw [and_left_comm]
    exact and_congr_right fun hr => ((hselects result hr).concepts_iff id concept).symm
  · rw [hall.relations_iff, false_or, ← exists_and_left]
    refine exists_congr fun result => ?_
    rw [and_left_comm]
    exact and_congr_right fun hr => ((hselects result hr).relations_iff id relation).symm

/-- How Ann knows Bob from school. -/
def schooling : Relation :=
  { id := "school", triple := ⟨"ann", "knows", "bob"⟩, metadata := .ofList [("years", .nat 7)] }

/-- Ann knows Bob, and knows him from school. -/
def schoolFriends : Graph :=
  ((Graph.empty.addConcepts [.known "ann", .known "bob", .known "carol"]).addRelations
    [.ofTriple ⟨"ann", "knows", "bob"⟩, schooling]).graph

/-- The query for who knows whom. -/
def acquaintance : Graph := .ofStatements ["?x", "?y"] [⟨"?x", "knows", "?y"⟩]

/-- Both ways in which Ann knows Bob answer the query, the named one with its metadata. -/
theorem query_unites_cuts_of_friends :
    ∃ merged, (memory schoolFriends).query {} acquaintance = .ok merged ∧
      merged.concepts.get? "bob" = some (.known "bob") ∧
      merged.relations.get? "school" = some schooling ∧
      merged.relations.get? "ann-knows->bob" = some (.ofTriple ⟨"ann", "knows", "bob"⟩) := by
  have hq : acquaintance.WellFormed := Graph.wellFormed_ofStatements _ _
  have hd : schoolFriends.WellFormed := (Graph.wellFormed_empty.addConcepts _).addRelations _
  have hfound : findBindings {} acquaintance schoolFriends =
      .ok [.ofList [("?x", "ann"), ("?y", "bob")]] := by decide
  obtain ⟨hcuts, hsearch⟩ := query_unites_cuts hq hd
  obtain ⟨results, -, hbindings, hmade, hstore⟩ := hsearch {} _ hfound
  obtain ⟨merged, hquery, -, hconcepts, hrelations⟩ := hstore (.memory schoolFriends) rfl
  obtain ⟨result, rfl, hbinding⟩ := List.map_eq_singleton_iff.mp hbindings
  have hselects := (hcuts result.binding).2 _ (hmade result List.mem_cons_self)
  rw [hbinding] at hselects
  have hanswers : ∀ relation : Relation, relation.triple = ⟨"ann", "knows", "bob"⟩ →
      Answers acquaintance (.ofList [("?x", "ann"), ("?y", "bob")]) relation := by
    intro relation ht
    exact ⟨⟨"?x", "knows", "?y"⟩, by decide, ht ▸ by decide⟩
  refine ⟨merged, hquery, (hconcepts _ _).mpr ⟨result, List.mem_cons_self, ?_⟩,
    (hrelations _ _).mpr ⟨result, List.mem_cons_self, ?_⟩,
    (hrelations _ _).mpr ⟨result, List.mem_cons_self, ?_⟩⟩
  · exact (hselects.concepts_iff _ _).mpr ⟨by decide, "?y", by decide, by decide⟩
  · exact (hselects.relations_iff _ _).mpr ⟨by decide, hanswers _ rfl⟩
  · exact (hselects.relations_iff _ _).mpr ⟨by decide, hanswers _ rfl⟩

end KnowledgeGraph.Store
