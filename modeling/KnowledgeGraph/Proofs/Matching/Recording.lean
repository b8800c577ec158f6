import KnowledgeGraph.Proofs.Matching.Selection

/-!
# What a match records

A match with the query beside it has the data concepts that the query concepts stand for as they are in
the data. It says what the query asks for, with data concepts in the places of query concepts and as the
query has it, and it links each query concept to the data concept it stands for. It says nothing else.
-/

namespace KnowledgeGraph.Matching

variable {query data base g g' matched : Graph} {binding : Binding} {concept : Concept} {id : String}
  {triple : Triple}

/-- The triple that links a query concept to the data concept it stands for. -/
def linkOf (binding : Binding) (id : String) : Triple := ⟨id, matchesType, binding.resolve id⟩

/-- A graph with those concepts added whose ids are free. -/
def withAbsent (g : Graph) (concepts : List Concept) : Graph :=
  concepts.foldl (fun g concept => (g.addConceptIfAbsent concept.id concept).2) g

/-- Concepts with free ids leave the other concepts and all relations. -/
theorem withAbsent_keeps {concepts : List Concept} (h : g.WellFormed) :
    (withAbsent g concepts).WellFormed ∧ (withAbsent g concepts).relations = g.relations ∧
      ∀ id concept, g.concepts.get? id = some concept →
        (withAbsent g concepts).concepts.get? id = some concept := by
  induction concepts generalizing g with
  | nil => exact ⟨h, rfl, fun _ _ hg => hg⟩
  | cons head rest ih =>
    obtain ⟨hw, hrelations, hconcepts⟩ := ih (h.addConceptIfAbsent head.id head)
    have hstep : (g.addConceptIfAbsent head.id head).2.relations = g.relations ∧
        ∀ id concept, g.concepts.get? id = some concept →
          (g.addConceptIfAbsent head.id head).2.concepts.get? id = some concept := by
      unfold Graph.addConceptIfAbsent
      split
      next => exact ⟨rfl, fun _ _ hg => hg⟩
      next hfree =>
        refine ⟨rfl, fun id concept hg => ?_⟩
        rw [Dict.get?_insert, if_neg]
        · exact hg
        · rintro rfl
          exact hfree (Dict.contains_of_get? hg)
    exact ⟨hw, hrelations.trans hstep.1, fun id concept hg => hconcepts id concept (hstep.2 id concept hg)⟩

/-- Adding missing relations adds what they say. -/
theorem adds_addMissing {relations : List Relation} (hg : g.WellFormed)
    (ha : addMissing g relations = .ok g') : g.Adds (relations.map (·.triple)) g' := by
  induction relations generalizing g with
  | nil =>
    cases ha
    exact .of_said hg nofun
  | cons relation rest ih =>
    rw [addMissing] at ha
    split at ha
    next hsaid =>
      have hfirst : g.Adds [relation.triple] g :=
        .of_said hg (List.forall_mem_singleton.mpr (hg.hasTriple_iff.mp hsaid))
      exact hfirst.trans (ih hg ha)
    next =>
      obtain ⟨next, hadd, ha⟩ := exists_of_bind_eq_ok ha
      have hfirst := hg.adds_addRelation hadd
      exact hfirst.trans (ih hfirst.wellFormed ha)

/-- Linking query concepts adds their links. -/
theorem adds_addLinks {concepts : List Concept} (hg : g.WellFormed)
    (ha : addLinks binding g concepts = .ok g') :
    g.Adds (concepts.map fun concept => linkOf binding concept.id) g' := by
  induction concepts generalizing g with
  | nil =>
    cases ha
    exact .of_said hg nofun
  | cons concept rest ih =>
    rw [addLinks] at ha
    obtain ⟨⟨created, next⟩, hadd, ha⟩ := exists_of_bind_eq_ok ha
    have hfirst := hg.adds_addTripleIfAbsent hadd
    exact hfirst.trans (ih hfirst.wellFormed ha)

/-- A match with the query beside it is made of what the binding cuts out. -/
theorem materialize_eq_ok (h : materialize true query data binding = .ok matched) :
    ∃ cut laid, materialize false query data binding = .ok cut ∧
      addMissing (withAbsent cut query.conceptList) query.relationList = .ok laid ∧
      addLinks binding laid query.conceptList = .ok matched := by
  unfold materialize at h ⊢
  obtain ⟨base, hbase, h⟩ := exists_of_bind_eq_ok h
  obtain ⟨cut, hcut, h⟩ := exists_of_bind_eq_ok h
  obtain ⟨laid, hlaid, hlinks⟩ := exists_of_bind_eq_ok h
  refine ⟨cut, laid, ?_, hlaid, hlinks⟩
  simp only [hbase, hcut, bind, Except.bind]
  rfl

/-- What an embedding cuts out says what the query asks for. -/
theorem Embeds.says_cut_iff (h : Embeds query data binding)
    (hc : data.Selects (StandsFor query binding) (Answers query binding) g) :
    g.Says triple ↔ ∃ asked, query.Says asked ∧ binding.resolveTriple asked = triple := by
  rw [Graph.says_iff]
  constructor
  · rintro ⟨id, relation, hg, rfl⟩
    exact ((hc.relations_iff id relation).mp hg).2
  · rintro ⟨_, ⟨asked, ha, rfl⟩, rfl⟩
    obtain ⟨found, hf, ht⟩ := h.holds asked ha
    obtain ⟨id, hg⟩ := Dict.mem_values.mp hf
    exact ⟨id, found, (hc.relations_iff id found).mpr ⟨hg, asked.triple, ⟨asked, ha, rfl⟩, ht.symm⟩, ht⟩

/-- A match records an embedding: it has the data concepts that query concepts stand for, what the query
asks for, resolved and as it is, and the links. -/
structure Records (query data : Graph) (binding : Binding) (matched : Graph) : Prop where
  /-- What query concepts stand for is as it is in the data. -/
  get?_resolve : ∀ id, query.hasConcept id = true →
    matched.concepts.get? (binding.resolve id) = data.concepts.get? (binding.resolve id)
  /-- A triple is a resolved one of the query, one of the query, or a link. -/
  says_iff : ∀ triple, matched.Says triple ↔
    (∃ asked, query.Says asked ∧ binding.resolveTriple asked = triple) ∨ query.Says triple ∨
      ∃ id, query.hasConcept id = true ∧ linkOf binding id = triple

/-- A match with the query beside it records the embedding. -/
theorem records_of_materialize (hq : query.WellFormed) (hd : data.WellFormed)
    (he : Embeds query data binding) (h : materialize true query data binding = .ok matched) :
    Records query data binding matched := by
  obtain ⟨cut, laid, hcut, hlaid, hlinks⟩ := materialize_eq_ok h
  have hselects := selects_of_materialize hq hd hcut
  obtain ⟨hw, hrelations, hconcepts⟩ := @withAbsent_keeps cut query.conceptList hselects.wellFormed
  have hlaidAdds := adds_addMissing hw hlaid
  have hlinksAdds := adds_addLinks hlaidAdds.wellFormed hlinks
  constructor
  · intro id hid
    obtain ⟨found, hf⟩ := Graph.hasConcept_iff.mp (he.hasConcept_resolve hq hd hid)
    rw [hf, hlinksAdds.concepts_eq, hlaidAdds.concepts_eq]
    exact hconcepts _ found ((hselects.concepts_iff _ found).mpr ⟨hf, id, hid, rfl⟩)
  · intro triple
    have habsent : (withAbsent cut query.conceptList).Says triple ↔ cut.Says triple := by
      rw [Graph.says_iff, Graph.says_iff, hrelations]
    rw [hlinksAdds.says_iff, hlaidAdds.says_iff, habsent, he.says_cut_iff hselects, or_assoc]
    have hquery : triple ∈ query.relationList.map (·.triple) ↔ query.Says triple := List.mem_map
    have hlinked : triple ∈ query.conceptList.map (fun concept => linkOf binding concept.id) ↔
        ∃ id, query.hasConcept id = true ∧ linkOf binding id = triple := by
      rw [List.mem_map]
      constructor
      · rintro ⟨concept, hc, rfl⟩
        exact ⟨concept.id, hq.exists_mem_conceptList.mp ⟨concept, hc, rfl⟩, rfl⟩
      · rintro ⟨id, hid, rfl⟩
        obtain ⟨concept, hc, rfl⟩ := hq.exists_mem_conceptList.mpr hid
        exact ⟨concept, hc, rfl⟩
    rw [hquery, hlinked]

end KnowledgeGraph.Matching
