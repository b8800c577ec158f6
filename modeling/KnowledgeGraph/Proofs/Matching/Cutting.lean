import KnowledgeGraph.Matching.Result
import KnowledgeGraph.Proofs.Graph.Containment
import KnowledgeGraph.Proofs.Matching.Enumeration

/-!
# What an embedding cuts out

Among graphs with the shape of notation an embedding stays one when the data grows, and what it cuts out
of the data is told by the query and the binding alone: it is the same graph in all data that contains
it, and it has the shape of notation again.
-/

namespace KnowledgeGraph.Matching

variable {query data data' g g' : Graph} {binding : Binding}

/-- An embedding into data is one into all data that contains it. -/
theorem Embeds.mono (h : Embeds query data binding) (hd : data.NotationShaped)
    (hd' : data'.NotationShaped) (hw : data.Within data') : Embeds query data' binding where
  keys_eq := h.keys_eq
  known := by
    intro unknown bound hb
    obtain ⟨concept, hg, hk⟩ := hd.mem_knownIds.mp (h.known unknown bound hb)
    exact hd'.mem_knownIds.mpr ⟨concept, hw.get?_concept hd hd' hg, hk⟩
  free := h.free
  injective := h.injective
  present id hid := hw.concepts id (h.present id hid)
  holds := by
    intro relation hr
    obtain ⟨found, hf, ht⟩ := h.holds relation hr
    obtain ⟨larger, hl, ht'⟩ := hw.triples found hf
    exact ⟨larger, hl, ht'.trans ht⟩

/-- A query concept stands for a concept of the data. -/
theorem Embeds.hasConcept_resolve (h : Embeds query data binding) (hq : query.WellFormed)
    (hd : data.WellFormed) {id : String} (hc : query.hasConcept id = true) :
    data.hasConcept (binding.resolve id) = true := by
  rcases hq.mem_knownIds_or hc with hknown | hunknown
  · rw [resolve_known hq h.keys_eq hknown]
    exact h.present id hknown
  · rw [← h.keys_eq, Dict.mem_keys, Dict.contains_iff] at hunknown
    obtain ⟨bound, hb⟩ := hunknown
    obtain ⟨concept, hg, -⟩ := hd.mem_knownIds.mp (h.known id bound hb)
    rw [Binding.resolve, hb]
    exact Dict.contains_of_get? hg

/-- The concepts that an embedding cuts out are those that the resolved ids stand for. -/
theorem addResolved_eq {concepts : List Concept} (hd : data.NotationShaped)
    (hp : ∀ concept ∈ concepts, data.hasConcept (binding.resolve concept.id) = true) :
    addResolved data binding g concepts =
      .ok (g.addConcepts (concepts.map fun concept => .ofReference (binding.resolve concept.id))) := by
  induction concepts generalizing g with
  | nil => rfl
  | cons concept rest ih =>
    have hg := hd.get?_concept (hp concept List.mem_cons_self)
    rw [addResolved, Graph.requireConcept_eq_ok.mpr hg]
    exact ih fun other ho => hp other (List.mem_cons_of_mem _ ho)

/-- A list without repetitions whose members are all one is the list of this one. -/
theorem eq_singleton_of_nodup {α : Type} {list : List α} {only : α} (hn : list.Nodup)
    (hm : only ∈ list) (ho : ∀ member ∈ list, member = only) : list = [only] := by
  have hrep := List.eq_replicate_of_mem ho
  rw [hrep, List.nodup_replicate] at hn
  have hlen : list.length = 1 := Nat.le_antisymm hn (List.length_pos_of_mem hm)
  rw [hrep, hlen]
  rfl

/-- The relation of a triple is the only one of data that says it. -/
theorem filter_relationsAt (hd : data.NotationShaped) {triple : Triple}
    (hs : ∃ found ∈ data.relationList, found.triple = triple) :
    ((data.relationsAt triple.source .outgoing).filter fun found => found.triple = triple) =
      [.ofTriple triple] := by
  obtain ⟨found, hf, ht⟩ := hs
  have heq : ∀ relation ∈ data.relationList, relation.triple = triple → relation = .ofTriple triple := by
    intro relation hr ht
    rw [hd.relation_eq (hd.toWellFormed.mem_relationList.mp hr), ht]
  have hn : data.relationList.Nodup := List.Nodup.of_map _ hd.toWellFormed.nodup_relationIds
  refine eq_singleton_of_nodup ((hn.filter _).filter _) ?_ ?_
  · rw [← heq found hf ht]
    simp only [Graph.relationsAt, List.mem_filter, Relation.touches, decide_eq_true_eq, ht,
      and_true]
    exact hf
  · intro relation hr
    obtain ⟨hr, ht⟩ := List.mem_filter.mp hr
    exact heq relation (List.mem_filter.mp hr).1 (of_decide_eq_true ht)

/-- The relations that an embedding cuts out are those of the resolved triples. -/
theorem resolvedRelations_eq (h : Embeds query data binding) (hd : data.NotationShaped) :
    resolvedRelations query data binding =
      query.relationList.map fun relation => .ofTriple (binding.resolveTriple relation.triple) := by
  unfold resolvedRelations
  rw [← List.flatMap_pure_eq_map]
  refine List.flatMap_congr fun relation hr => ?_
  exact filter_relationsAt hd (h.holds relation hr)

/-- An embedding into two graphs cuts the same out of both. -/
theorem materialize_congr (h : Embeds query data binding) (h' : Embeds query data' binding)
    (hq : query.WellFormed) (hd : data.NotationShaped) (hd' : data'.NotationShaped)
    (includeQuery : Bool) :
    materialize includeQuery query data binding = materialize includeQuery query data' binding := by
  have hids : ∀ concept ∈ query.conceptList, query.hasConcept concept.id = true :=
    fun concept hc => Dict.contains_of_get? (hq.mem_conceptList.mp hc)
  unfold materialize
  rw [resolvedRelations_eq h hd, resolvedRelations_eq h' hd', addResolved_eq hd, addResolved_eq hd']
  · intro concept hc
    exact h'.hasConcept_resolve hq hd'.toWellFormed (hids concept hc)
  · intro concept hc
    exact h.hasConcept_resolve hq hd.toWellFormed (hids concept hc)

/-- Adding the missing relations of a query keeps the shape of notation. -/
theorem addMissing_shaped {relations : List Relation} (hg : g.NotationShaped)
    (hr : ∀ relation ∈ relations, relation = .ofTriple relation.triple)
    (ha : addMissing g relations = .ok g') : g'.NotationShaped := by
  induction relations generalizing g with
  | nil =>
    cases ha
    exact hg
  | cons relation rest ih =>
    have hrest : ∀ other ∈ rest, other = .ofTriple other.triple :=
      fun other ho => hr other (List.mem_cons_of_mem _ ho)
    rw [addMissing] at ha
    split at ha
    next => exact ih hg hrest ha
    next =>
      obtain ⟨next, hadd, ha⟩ := exists_of_bind_eq_ok ha
      rw [hr relation List.mem_cons_self] at hadd
      exact ih (hg.addRelation hadd) hrest ha

/-- Linking a query to what it stands for keeps the shape of notation. -/
theorem addLinks_shaped {concepts : List Concept} (hg : g.NotationShaped)
    (ha : addLinks binding g concepts = .ok g') : g'.NotationShaped := by
  induction concepts generalizing g with
  | nil =>
    cases ha
    exact hg
  | cons concept rest ih =>
    rw [addLinks] at ha
    obtain ⟨next, hadd, ha⟩ := exists_of_bind_eq_ok ha
    exact ih (hg.addTripleIfAbsent hadd) ha

/-- Laying a query beside a match keeps the shape of notation. -/
theorem addQuery_shaped (hq : query.NotationShaped) (hg : g.NotationShaped)
    (ha : addQuery query binding g = .ok g') : g'.NotationShaped := by
  have hfold : ∀ concepts : List Concept, (∀ concept ∈ concepts, concept = .ofReference concept.id) →
      ∀ g : Graph, g.NotationShaped →
        (concepts.foldl (fun g concept => (g.addConceptIfAbsent concept.id concept).2)
          g).NotationShaped := by
    intro concepts hc
    induction concepts with
    | nil => exact fun _ hg => hg
    | cons concept rest ih =>
      intro g hg
      have hnext := hg.addConceptIfAbsent concept.id
      rw [← hc concept List.mem_cons_self] at hnext
      exact ih (fun other ho => hc other (List.mem_cons_of_mem _ ho)) _ hnext
  have hconcepts := hfold query.conceptList (fun concept hc => (hq.mem_conceptList.mp hc).2) g hg
  unfold addQuery at ha
  obtain ⟨next, hadd, ha⟩ := exists_of_bind_eq_ok ha
  refine addLinks_shaped (addMissing_shaped hconcepts ?_ hadd) ha
  intro relation hr
  exact hq.relation_eq (hq.toWellFormed.mem_relationList.mp hr)

/-- What an embedding cuts out has the shape of notation, also with the query beside it. -/
theorem materialize_shaped {includeQuery : Bool} (h : Embeds query data binding)
    (hq : query.NotationShaped) (hd : data.NotationShaped)
    (hm : materialize includeQuery query data binding = .ok g) : g.NotationShaped := by
  have hids : ∀ concept ∈ query.conceptList,
      data.hasConcept (binding.resolve concept.id) = true := fun concept hc =>
    h.hasConcept_resolve hq.toWellFormed hd.toWellFormed (hq.mem_conceptList.mp hc).1
  have hconcepts : (Graph.empty.addConcepts (query.conceptList.map fun concept =>
      .ofReference (binding.resolve concept.id))).NotationShaped := by
    refine Graph.NotationShaped.empty.addConcepts ?_
    intro concept hc
    obtain ⟨before, -, rfl⟩ := List.mem_map.mp hc
    rw [Concept.ofReference_id]
  have hrelations : ∀ relation ∈ resolvedRelations query data binding,
      relation = .ofTriple relation.triple := by
    rw [resolvedRelations_eq h hd]
    intro relation hr
    obtain ⟨before, -, rfl⟩ := List.mem_map.mp hr
    rfl
  have hshaped := hconcepts.addRelations hrelations
  unfold materialize at hm
  obtain ⟨base, hbase, hm⟩ := exists_of_bind_eq_ok hm
  rw [addResolved_eq hd hids] at hbase
  cases hbase
  obtain ⟨next, hadd, hm⟩ := exists_of_bind_eq_ok hm
  rw [(Graph.toExcept_eq_ok.mp hadd).2] at hshaped
  split at hm
  next => exact addQuery_shaped hq hshaped hm
  next =>
    cases hm
    exact hshaped

end KnowledgeGraph.Matching
