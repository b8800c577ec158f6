import KnowledgeGraph.Proofs.Graph.Selection
import KnowledgeGraph.Proofs.Matching.Cutting

/-!
# What bindings cut out

A binding cuts out of the data what the query concepts stand for and every relation that says what a
query relation asks for, and alters nothing. It needs not be an embedding for that, as long as the data
has what the query concepts stand for. Main statements: `exists_materialize_iff`,
`selects_of_materialize`.
-/

namespace KnowledgeGraph.Matching

variable {query data g g' : Graph} {binding : Binding} {ids : String → Prop} {wanted : Relation → Prop}
  {relation : Relation} {limits : SearchLimits} {found : List Binding}

/-- Some query concept stands for what has an id. -/
def StandsFor (query : Graph) (binding : Binding) (id : String) : Prop :=
  ∃ asked, query.hasConcept asked = true ∧ binding.resolve asked = id

/-- A relation says what some query relation asks for. -/
def Answers (query : Graph) (binding : Binding) (relation : Relation) : Prop :=
  ∃ asked, query.Says asked ∧ binding.resolveTriple asked = relation.triple

/-- The concepts that query concepts stand for are selected, if the data has them. -/
theorem addResolved_selects {concepts : List Concept} (h : data.Selects ids wanted g)
    (hd : data.WellFormed)
    (hp : ∀ concept ∈ concepts, data.hasConcept (binding.resolve concept.id) = true) :
    ∃ all, addResolved data binding g concepts = .ok all ∧
      data.Selects (fun id => ids id ∨ ∃ concept ∈ concepts, binding.resolve concept.id = id) wanted
        all := by
  induction concepts generalizing g ids with
  | nil => exact ⟨g, rfl, h.congr (fun id _ => by simp) fun _ _ _ => Iff.rfl⟩
  | cons head rest ih =>
    obtain ⟨hhead, hrest⟩ := List.forall_mem_cons.mp hp
    obtain ⟨resolved, hg⟩ := Graph.hasConcept_iff.mp hhead
    have hid := hd.concept_id _ resolved hg
    have hnext := h.addConcept (hid.symm ▸ hg)
    obtain ⟨all, hall, hselects⟩ := ih hnext hrest
    refine ⟨all, ?_, hselects.congr (fun id _ => ?_) fun _ _ _ => Iff.rfl⟩
    · rw [addResolved, Graph.requireConcept_eq_ok.mpr hg]
      exact hall
    · rw [List.exists_mem_cons_iff, or_assoc, hid, eq_comm]

/-- If concepts for query concepts were added the data has them. -/
theorem hasConcept_of_addResolved {concepts : List Concept}
    (h : addResolved data binding g concepts = .ok g') :
    ∀ concept ∈ concepts, data.hasConcept (binding.resolve concept.id) = true := by
  induction concepts generalizing g with
  | nil => nofun
  | cons head rest ih =>
    rw [addResolved] at h
    obtain ⟨resolved, hr, h⟩ := exists_of_bind_eq_ok h
    have hhead := Dict.contains_of_get? (Graph.requireConcept_eq_ok.mp hr)
    exact List.forall_mem_cons.mpr ⟨hhead, ih h⟩

/-- The relations that are cut out are those of the data that answer the query. -/
theorem mem_resolvedRelations :
    relation ∈ resolvedRelations query data binding ↔
      relation ∈ data.relationList ∧ Answers query binding relation := by
  simp only [resolvedRelations, List.mem_flatMap, List.mem_filter, Graph.relationsAt,
    Relation.touches, decide_eq_true_eq]
  constructor
  · rintro ⟨asked, ha, ⟨hr, -⟩, ht⟩
    exact ⟨hr, asked.triple, ⟨asked, ha, rfl⟩, ht.symm⟩
  · rintro ⟨hr, _, ⟨asked, ha, rfl⟩, ht⟩
    exact ⟨asked, ha, ⟨hr, congrArg Triple.source ht.symm⟩, ht.symm⟩

/-- If the data has what the query concepts stand for, they are cut out with all relations that answer
the query. -/
theorem materialize_selects (hq : query.WellFormed) (hd : data.WellFormed)
    (hp : ∀ id, query.hasConcept id = true → data.hasConcept (binding.resolve id) = true) :
    ∃ cut, materialize false query data binding = .ok cut ∧
      data.Selects (StandsFor query binding) (Answers query binding) cut := by
  obtain ⟨base, hbase, hselects⟩ := addResolved_selects (.empty data) hd fun concept hc =>
    hp concept.id (hq.exists_mem_conceptList.mp ⟨concept, hc, rfl⟩)
  have hstands : data.Selects (StandsFor query binding) (fun _ => False) base := by
    refine hselects.congr (fun id _ => ?_) fun _ _ _ => Iff.rfl
    rw [false_or]
    constructor
    · rintro ⟨concept, hc, hid⟩
      exact ⟨concept.id, hq.exists_mem_conceptList.mp ⟨concept, hc, rfl⟩, hid⟩
    · rintro ⟨asked, ha, hid⟩
      obtain ⟨concept, hc, rfl⟩ := hq.exists_mem_conceptList.mpr ha
      exact ⟨concept, hc, hid⟩
  have hlisted : ∀ relation ∈ resolvedRelations query data binding,
      data.relations.get? relation.id = some relation :=
    fun relation hr => hd.mem_relationList.mp (mem_resolvedRelations.mp hr).1
  have hends : ∀ relation ∈ resolvedRelations query data binding,
      base.hasConcept relation.triple.source = true ∧
        base.hasConcept relation.triple.target = true := by
    intro relation hr
    have hg := hlisted relation hr
    obtain ⟨-, asked, hasked, heq⟩ := mem_resolvedRelations.mp hr
    obtain ⟨hs, ht⟩ := hq.ends_of_says hasked
    rw [hstands.hasConcept_iff, hstands.hasConcept_iff]
    exact ⟨⟨hd.source_mem _ relation hg, asked.source, hs, congrArg Triple.source heq⟩,
      hd.target_mem _ relation hg, asked.target, ht, congrArg Triple.target heq⟩
  obtain ⟨cut, hcut, hall⟩ := hstands.addRelations hd hlisted hends
  refine ⟨cut, ?_, hall.congr (fun _ _ => Iff.rfl) fun id relation hg => ?_⟩
  · unfold materialize
    rw [hbase]
    simp only [bind, Except.bind, hcut]
    rfl
  · have hmem := Dict.mem_values.mpr ⟨id, hg⟩
    rw [false_or, mem_resolvedRelations]
    exact and_iff_right hmem

/-- A binding cuts something out just when the data has what all query concepts stand for. -/
theorem exists_materialize_iff (hq : query.WellFormed) (hd : data.WellFormed) :
    (∃ cut, materialize false query data binding = .ok cut) ↔
      ∀ id, query.hasConcept id = true → data.hasConcept (binding.resolve id) = true := by
  constructor
  · rintro ⟨cut, hcut⟩ id hid
    unfold materialize at hcut
    obtain ⟨base, hbase, -⟩ := exists_of_bind_eq_ok hcut
    obtain ⟨concept, hc, rfl⟩ := hq.exists_mem_conceptList.mpr hid
    exact hasConcept_of_addResolved hbase concept hc
  · intro hp
    obtain ⟨cut, hcut, -⟩ := materialize_selects hq hd hp
    exact ⟨cut, hcut⟩

/-- What is cut out is a selection of the data. -/
theorem selects_of_materialize (hq : query.WellFormed) (hd : data.WellFormed)
    (h : materialize false query data binding = .ok g) :
    data.Selects (StandsFor query binding) (Answers query binding) g := by
  obtain ⟨cut, hcut, hselects⟩ := materialize_selects hq hd ((exists_materialize_iff hq hd).mp ⟨g, h⟩)
  rw [h] at hcut
  cases hcut
  exact hselects

/-- Bindings of which each makes a match all do, in their order. -/
theorem findMatches_of_materialize {options : Options}
    (h : findBindings options.limits query data = .ok found)
    (hmade : ∀ binding ∈ found,
      ∃ graph, materialize options.includeQuery query data binding = .ok graph) :
    ∃ results, findMatches options query data = .ok results ∧ results.map (·.binding) = found ∧
      ∀ result ∈ results,
        materialize options.includeQuery query data result.binding = .ok result.graph := by
  have hmatches : ∀ binding ∈ found, ∃ result : Match,
      (do let graph ← materialize options.includeQuery query data binding
          .ok ({ binding, graph } : Match)) = Except.ok (ε := Fault) result ∧
        result.binding = binding ∧
        materialize options.includeQuery query data result.binding = .ok result.graph := by
    intro binding hb
    obtain ⟨graph, hgraph⟩ := hmade binding hb
    refine ⟨⟨binding, graph⟩, ?_, rfl, hgraph⟩
    rw [hgraph]
    rfl
  obtain ⟨results, hm, hback, hgood⟩ := exists_of_mapM_of_forall hmatches
  refine ⟨results, ?_, hback, hgood⟩
  unfold findMatches
  rw [h]
  exact hm

/-- If a search for matches answers, each binding makes a match. -/
theorem materialize_of_findMatches {options : Options} {results : List Match}
    (h : findBindings options.limits query data = .ok found)
    (hr : findMatches options query data = .ok results) :
    ∀ binding ∈ found, ∃ graph, materialize options.includeQuery query data binding = .ok graph := by
  intro binding hb
  unfold findMatches at hr
  rw [h] at hr
  obtain ⟨result, -, hmade⟩ := (mem_of_mapM_eq_ok hr).2 binding hb
  obtain ⟨graph, hgraph, -⟩ := exists_of_bind_eq_ok hmade
  exact ⟨graph, hgraph⟩

/-- If a search for matches is refused though bindings were found, the match of one of them is. -/
theorem fault_of_findMatches {options : Options} {fault : Fault}
    (h : findBindings options.limits query data = .ok found)
    (hr : findMatches options query data = .error fault) :
    ∃ binding ∈ found, materialize options.includeQuery query data binding = .error fault := by
  unfold findMatches at hr
  rw [h] at hr
  obtain ⟨binding, hb, hrefused⟩ := exists_of_mapM_eq_error hr
  refine ⟨binding, hb, ?_⟩
  cases hm : materialize options.includeQuery query data binding with
  | error first =>
    rw [hm] at hrefused
    cases hrefused
    rfl
  | ok graph =>
    rw [hm] at hrefused
    cases hrefused

/-- The bindings that a search finds all cut something out, in their order. -/
theorem findMatches_of_findBindings (hq : query.WellFormed) (hd : data.WellFormed)
    (h : findBindings limits query data = .ok found) :
    ∃ results, findMatches ⟨false, limits⟩ query data = .ok results ∧
      results.map (·.binding) = found ∧
      ∀ result ∈ results, materialize false query data result.binding = .ok result.graph := by
  refine @findMatches_of_materialize _ _ _ ⟨false, limits⟩ h fun binding hb => ?_
  have he := (mem_embeddings_iff hq hd).mp (mem_embeddings_of_findBindings hq hd h hb)
  exact (exists_materialize_iff hq hd).mpr fun id hid => he.hasConcept_resolve hq hd hid

end KnowledgeGraph.Matching
