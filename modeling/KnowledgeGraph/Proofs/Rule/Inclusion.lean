import KnowledgeGraph.Proofs.Graph.Union
import KnowledgeGraph.Proofs.Rule.First

/-!
# Matches with the query beside them

In a match with the query beside it relations of the data, relations of the query and links stand in one
graph, so no id may stand for two triples among them. Where none does, every binding makes a match, from
which a rule goes on to its conclusion; where one does, the search for matches is refused and names such
an id. Main statement: `findMatches_with_query`.
-/

namespace KnowledgeGraph

namespace Matching

variable {query data base g g' cut matched : Graph} {binding : Binding} {relation : Relation}
  {relations more : List Relation} {concepts : List Concept} {said : List Triple} {fault : Fault}
  {limits : SearchLimits} {found : List Binding} {id : String}

/-- Those of some relations that say what neither was said at first nor one before them says. -/
def novel (said : List Triple) : List Relation → List Relation
  | [] => []
  | relation :: rest =>
    if relation.triple ∈ said then novel said rest
    else relation :: novel (relation.triple :: said) rest

/-- What is said anew is among the relations. -/
theorem mem_of_mem_novel (h : relation ∈ novel said relations) : relation ∈ relations := by
  induction relations generalizing said with
  | nil => cases h
  | cons head rest ih =>
    rw [novel] at h
    split at h
    next => exact List.mem_cons_of_mem _ (ih h)
    next =>
      rcases List.mem_cons.mp h with rfl | h
      · exact List.mem_cons_self
      · exact List.mem_cons_of_mem _ (ih h)

/-- Adding missing relations adds those that say something anew. -/
theorem addMissing_eq (hg : g.WellFormed) (hs : ∀ triple, triple ∈ said ↔ g.Says triple) :
    addMissing g relations = (g.addRelations (novel said relations)).toExcept := by
  induction relations generalizing g said with
  | nil => rfl
  | cons head rest ih =>
    have hsaid : g.hasTriple head.triple = true ↔ head.triple ∈ said :=
      hg.hasTriple_iff.trans (hs head.triple).symm
    rw [addMissing, novel]
    by_cases hmem : head.triple ∈ said
    · rw [if_pos (hsaid.mpr hmem), if_pos hmem]
      exact ih hg hs
    · rw [if_neg fun h => hmem (hsaid.mp h), if_neg hmem, Graph.addRelations]
      cases ha : g.addRelation head with
      | error fault => rfl
      | ok next =>
        have hadds := hg.adds_addRelation ha
        refine ih hadds.wellFormed fun triple => ?_
        rw [hadds.says_iff, List.mem_cons, List.mem_singleton, hs, or_comm]

/-- Missing relations may be added in two parts. -/
theorem addMissing_append :
    addMissing g (relations ++ more) = addMissing g relations >>= fun g => addMissing g more := by
  induction relations generalizing g with
  | nil => rfl
  | cons head rest ih =>
    rw [List.cons_append, addMissing, addMissing]
    split
    next => exact ih
    next =>
      cases g.addRelation head with
      | error fault => rfl
      | ok next => exact ih

/-- The relations that link concepts to what they stand for. -/
def linksOf (binding : Binding) (concepts : List Concept) : List Relation :=
  concepts.map fun concept => .ofTriple (linkOf binding concept.id)

/-- Linking concepts of a graph adds the links that are missing. -/
theorem addLinks_eq (hg : g.WellFormed)
    (hc : ∀ concept ∈ concepts, g.hasConcept concept.id = true ∧
      g.hasConcept (binding.resolve concept.id) = true) :
    addLinks binding g concepts = addMissing g (linksOf binding concepts) := by
  induction concepts generalizing g with
  | nil => rfl
  | cons head rest ih =>
    obtain ⟨⟨hsource, htarget⟩, hrest⟩ := List.forall_mem_cons.mp hc
    have hlink : g.addTripleIfAbsent (linkOf binding head.id) =
        if g.hasTriple (linkOf binding head.id) then .ok (false, g)
        else (g.addRelation (.ofTriple (linkOf binding head.id))).map fun g => (true, g) :=
      Graph.addTripleIfAbsent_of_ends hsource htarget
    change (g.addTripleIfAbsent (linkOf binding head.id) >>= fun pair =>
      addLinks binding pair.2 rest) =
        addMissing g (.ofTriple (linkOf binding head.id) :: linksOf binding rest)
    rw [addMissing, hlink]
    change _ = if g.hasTriple (linkOf binding head.id) then _ else _
    split
    next => exact ih hg hrest
    next =>
      cases ha : g.addRelation (.ofTriple (linkOf binding head.id)) with
      | error fault => rfl
      | ok next =>
        refine ih (hg.addRelation ha) fun concept hm => ?_
        have hsame : ∀ id, next.hasConcept id = g.hasConcept id := fun id => by
          rw [Graph.hasConcept, Graph.hasConcept, Graph.addRelation_concepts ha]
        rw [hsame, hsame]
        exact hrest concept hm

/-- Concepts with free ids are there once they are added. -/
theorem hasConcept_withAbsent :
    (withAbsent g concepts).hasConcept id = true ↔
      (∃ concept ∈ concepts, concept.id = id) ∨ g.hasConcept id = true := by
  induction concepts generalizing g with
  | nil => simp [withAbsent]
  | cons head rest ih =>
    have hstep : (g.addConceptIfAbsent head.id head).2.hasConcept id = true ↔
        head.id = id ∨ g.hasConcept id = true := by
      unfold Graph.addConceptIfAbsent
      split
      next hthere => exact ⟨.inr, fun h => h.elim (fun same => same ▸ hthere) fun hold => hold⟩
      next => rw [Graph.hasConcept, Dict.contains_insert, Graph.hasConcept]
    rw [withAbsent, List.foldl_cons, ← withAbsent, ih, hstep, List.exists_mem_cons_iff, or_assoc,
      or_left_comm]

/-- Laying a query beside a graph with what its concepts stand for adds the query relations and the links
that are missing. -/
theorem addQuery_eq (hg : g.WellFormed) (hq : query.WellFormed)
    (hc : ∀ id, query.hasConcept id = true → g.hasConcept (binding.resolve id) = true) :
    addQuery query binding g = addMissing (withAbsent g query.conceptList)
      (query.relationList ++ linksOf binding query.conceptList) := by
  obtain ⟨hw, -, -⟩ := @withAbsent_keeps g query.conceptList hg
  change (addMissing (withAbsent g query.conceptList) query.relationList >>= fun g =>
    addLinks binding g query.conceptList) = _
  rw [addMissing_append]
  cases ha : addMissing (withAbsent g query.conceptList) query.relationList with
  | error fault => rfl
  | ok laid =>
    have hadds := adds_addMissing hw ha
    have hsame : ∀ id, laid.hasConcept id = (withAbsent g query.conceptList).hasConcept id := by
      intro id
      rw [Graph.hasConcept, Graph.hasConcept, hadds.concepts_eq]
    refine addLinks_eq hadds.wellFormed fun concept hm => ?_
    have hid := hq.exists_mem_conceptList.mp ⟨concept, hm, rfl⟩
    rw [hsame, hsame, hasConcept_withAbsent, hasConcept_withAbsent]
    exact ⟨.inl ⟨concept, hm, rfl⟩, .inr (hc concept.id hid)⟩

/-- The query relations and then the links that say what neither the data relations that answer the query
nor one before them says. -/
def anew (query data : Graph) (binding : Binding) : List Relation :=
  novel ((resolvedRelations query data binding).map (·.triple))
    (query.relationList ++ linksOf binding query.conceptList)

/-- The relations that come to stand in a match with the query beside it: those of the data that answer
the query, and what is said anew. -/
def entered (query data : Graph) (binding : Binding) : List Relation :=
  resolvedRelations query data binding ++ anew query data binding

/-- No id stands for two triples among the relations that come to stand in a match. -/
def Compatible (query data : Graph) (binding : Binding) : Prop :=
  ∀ first ∈ entered query data binding, ∀ second ∈ entered query data binding,
    first.id = second.id → first.triple = second.triple

instance : Decidable (Compatible query data binding) :=
  inferInstanceAs (Decidable (∀ first ∈ entered query data binding,
    ∀ second ∈ entered query data binding, first.id = second.id → first.triple = second.triple))

section Cut

variable (hq : query.WellFormed) (hd : data.WellFormed)
  (hcut : materialize false query data binding = .ok cut)

include hq hd hcut

/-- What is cut out stays well-formed with the query concepts, and says just the same. -/
theorem withAbsent_cut : (withAbsent cut query.conceptList).WellFormed ∧
    ∀ id relation, (withAbsent cut query.conceptList).relations.get? id = some relation ↔
      data.relations.get? id = some relation ∧ Answers query binding relation := by
  have hselects := selects_of_materialize hq hd hcut
  obtain ⟨hw, hrelations, -⟩ := @withAbsent_keeps cut query.conceptList hselects.wellFormed
  rw [hrelations]
  exact ⟨hw, hselects.relations_iff⟩

/-- The query concepts are there, and what they stand for. -/
theorem hasConcept_withAbsent_cut (hid : query.hasConcept id = true) :
    (withAbsent cut query.conceptList).hasConcept id = true ∧
      (withAbsent cut query.conceptList).hasConcept (binding.resolve id) = true := by
  have hselects := selects_of_materialize hq hd hcut
  have hresolved := (exists_materialize_iff hq hd).mp ⟨cut, hcut⟩ id hid
  rw [hasConcept_withAbsent, hasConcept_withAbsent, hselects.hasConcept_iff (binding.resolve id)]
  exact ⟨.inl (hq.exists_mem_conceptList.mpr hid), .inr ⟨hresolved, id, hid, rfl⟩⟩

/-- A match with the query beside it is what the binding cuts out, with the query concepts and with what
is said anew. -/
theorem materialize_eq : materialize true query data binding =
    ((withAbsent cut query.conceptList).addRelations (anew query data binding)).toExcept := by
  obtain ⟨hw, hrelations⟩ := withAbsent_cut hq hd hcut
  have hselects := selects_of_materialize hq hd hcut
  have hresolved := (exists_materialize_iff hq hd).mp ⟨cut, hcut⟩
  have hquery : materialize true query data binding = addQuery query binding cut := by
    unfold materialize at hcut ⊢
    obtain ⟨base, hbase, hcut⟩ := exists_of_bind_eq_ok hcut
    obtain ⟨edited, hedited, hcut⟩ := exists_of_bind_eq_ok hcut
    cases hcut
    simp only [hbase, hedited, bind, Except.bind]
    rfl
  have hsaid : ∀ triple, triple ∈ (resolvedRelations query data binding).map (·.triple) ↔
      (withAbsent cut query.conceptList).Says triple := by
    intro triple
    rw [Graph.says_iff, List.mem_map]
    constructor
    · rintro ⟨relation, hr, rfl⟩
      obtain ⟨hlisted, hanswers⟩ := mem_resolvedRelations.mp hr
      exact ⟨relation.id, relation,
        (hrelations _ _).mpr ⟨hd.mem_relationList.mp hlisted, hanswers⟩, rfl⟩
    · rintro ⟨id, relation, hr, rfl⟩
      obtain ⟨hthere, hanswers⟩ := (hrelations _ _).mp hr
      exact ⟨relation, mem_resolvedRelations.mpr ⟨Dict.mem_values.mpr ⟨id, hthere⟩, hanswers⟩, rfl⟩
  rw [hquery, addQuery_eq hselects.wellFormed hq fun id hid =>
    (hselects.hasConcept_iff _).mpr ⟨hresolved id hid, id, hid, rfl⟩, addMissing_eq hw hsaid]
  rfl

/-- What comes to stand in a match is cut out or said anew. -/
theorem among_iff_mem_entered :
    (withAbsent cut query.conceptList).Among (anew query data binding) relation ↔
      relation ∈ entered query data binding := by
  rw [Graph.Among, (withAbsent_cut hq hd hcut).2, entered, List.mem_append, mem_resolvedRelations,
    hd.mem_relationList, or_comm]

/-- What is said anew leads between concepts that are there. -/
theorem ends_of_mem_anew : ∀ relation ∈ anew query data binding,
    (withAbsent cut query.conceptList).hasConcept relation.triple.source = true ∧
      (withAbsent cut query.conceptList).hasConcept relation.triple.target = true := by
  intro relation hr
  rcases List.mem_append.mp (mem_of_mem_novel hr) with hasked | hlink
  · obtain ⟨hs, ht⟩ := hq.ends_of_says ⟨relation, hasked, rfl⟩
    exact ⟨(hasConcept_withAbsent_cut hq hd hcut hs).1, (hasConcept_withAbsent_cut hq hd hcut ht).1⟩
  · obtain ⟨concept, hc, rfl⟩ := List.mem_map.mp hlink
    exact hasConcept_withAbsent_cut hq hd hcut (hq.exists_mem_conceptList.mp ⟨concept, hc, rfl⟩)

/-- A binding that cuts something out makes a match with the query beside it just when no id stands for
two triples. -/
theorem exists_materialize_iff_compatible :
    (∃ matched, materialize true query data binding = .ok matched) ↔
      Compatible query data binding := by
  rw [materialize_eq hq hd hcut, Graph.exists_toExcept_iff,
    Graph.addRelations_fault_eq_none_iff (ends_of_mem_anew hq hd hcut),
    (withAbsent_cut hq hd hcut).1.accepts_iff]
  simp only [among_iff_mem_entered hq hd hcut]
  exact ⟨fun h first hf second hs => h first second hf hs, fun h first second hf hs =>
    h first hf second hs⟩

/-- A match with the query beside it that is refused names an id that stands for two triples. -/
theorem fault_of_materialize (h : materialize true query data binding = .error fault) :
    ∃ first ∈ entered query data binding, ∃ second ∈ entered query data binding,
      first.id = second.id ∧ first.triple ≠ second.triple ∧ fault = .duplicateRelation first.id := by
  rw [materialize_eq hq hd hcut, Graph.toExcept_eq_error] at h
  obtain ⟨first, second, hfirst, hsecond, hrest⟩ :=
    (withAbsent_cut hq hd hcut).1.exists_of_addRelations_fault (ends_of_mem_anew hq hd hcut) h
  exact ⟨first, (among_iff_mem_entered hq hd hcut).mp hfirst, second,
    (among_iff_mem_entered hq hd hcut).mp hsecond, hrest⟩

end Cut

/-- A match with the query beside it is well-formed. -/
theorem wellFormed_of_materialize (hq : query.WellFormed) (hd : data.WellFormed)
    (h : materialize true query data binding = .ok matched) : matched.WellFormed := by
  obtain ⟨cut, -, hcut, -, -⟩ := materialize_eq_ok h
  rw [materialize_eq hq hd hcut] at h
  exact (Graph.toExcept_eq_ok.mp h).2 ▸ (withAbsent_cut hq hd hcut).1.addRelations _

/-- For every binding that a search finds, a match with the query beside it is made just when no id
stands for two triples among the relations of the data, of the query and the links that come to stand in
it, and what a rule with the query as its hypothesis concludes is then what it makes of that match. So
the search for matches succeeds just when no binding has such an id, with one match per binding, in which
every query concept is linked to the data concept it stands for; otherwise it names such an id. -/
theorem findMatches_with_query (hq : query.WellFormed) (hd : data.WellFormed)
    (hfound : findBindings limits query data = .ok found) :
    (∀ binding ∈ found, ((∃ matched, materialize true query data binding = .ok matched) ↔
      Compatible query data binding)) ∧
    (∀ rule : Rule, rule.hypothesis = query →
      (∀ binding ∈ found, Compatible query data binding →
        ∃ matched, materialize true query data binding = .ok matched ∧
          rule.conclude data binding = rule.ground matched) ∧
      rule.applyFirst limits data = (found.head?.map (rule.conclude data)).getD (.ok .empty)) ∧
    ((∃ results, findMatches ⟨true, limits⟩ query data = .ok results) ↔
      ∀ binding ∈ found, Compatible query data binding) ∧
    (∀ results, findMatches ⟨true, limits⟩ query data = .ok results →
      results.map (·.binding) = found ∧ ∀ result ∈ results, ∀ id, query.hasConcept id = true →
        result.graph.hasConcept id = true ∧ data.hasConcept (result.binding.resolve id) = true ∧
          result.graph.Says ⟨id, matchesType, result.binding.resolve id⟩) ∧
    ∀ fault, findMatches ⟨true, limits⟩ query data = .error fault →
      ∃ binding ∈ found, ∃ first ∈ entered query data binding,
        ∃ second ∈ entered query data binding, first.id = second.id ∧ first.triple ≠ second.triple ∧
          fault = .duplicateRelation first.id := by
  have hembeds : ∀ binding ∈ found, Embeds query data binding := fun binding hb =>
    (mem_embeddings_iff hq hd).mp (mem_embeddings_of_findBindings hq hd hfound hb)
  have hcuts : ∀ binding ∈ found, ∃ cut, materialize false query data binding = .ok cut :=
    fun binding hb => (exists_materialize_iff hq hd).mpr fun _ hid =>
      (hembeds binding hb).hasConcept_resolve hq hd hid
  have hmade : ∀ binding ∈ found, ((∃ matched, materialize true query data binding = .ok matched) ↔
      Compatible query data binding) := by
    intro binding hb
    obtain ⟨cut, hcut⟩ := hcuts binding hb
    exact exists_materialize_iff_compatible hq hd hcut
  refine ⟨hmade, ?_, ⟨?_, ?_⟩, fun results hr => ?_, fun fault hr => ?_⟩
  · rintro rule rfl
    refine ⟨fun binding hb hcompatible => ?_, Rule.applyFirst_of_found hq hd hfound⟩
    obtain ⟨matched, hmatched⟩ := (hmade binding hb).mpr hcompatible
    refine ⟨matched, hmatched, ?_⟩
    rw [Rule.conclude, hmatched]
    rfl
  · rintro ⟨results, hr⟩ binding hb
    exact (hmade binding hb).mp (materialize_of_findMatches hfound hr binding hb)
  · intro hall
    obtain ⟨results, hr, -⟩ := @findMatches_of_materialize _ _ _ ⟨true, limits⟩ hfound
      fun binding hb => (hmade binding hb).mpr (hall binding hb)
    exact ⟨results, hr⟩
  · obtain ⟨same, hsame, hbindings, hgraphs⟩ := findMatches_of_materialize hfound
      (materialize_of_findMatches hfound hr)
    rw [hr] at hsame
    cases hsame
    refine ⟨hbindings, fun result hresult id hid => ?_⟩
    have he := hembeds result.binding (hbindings ▸ List.mem_map_of_mem hresult)
    have hgraph := hgraphs result hresult
    have hlinked := ((records_of_materialize hq hd he hgraph).says_iff
      (linkOf result.binding id)).mpr (.inr (.inr ⟨id, hid, rfl⟩))
    have hwell := wellFormed_of_materialize hq hd hgraph
    obtain ⟨hthere, -⟩ := hwell.ends_of_says hlinked
    exact ⟨hthere, he.hasConcept_resolve hq hd hid, hlinked⟩
  · obtain ⟨binding, hb, hrefused⟩ := fault_of_findMatches hfound hr
    obtain ⟨cut, hcut⟩ := hcuts binding hb
    exact ⟨binding, hb, fault_of_materialize hq hd hcut hrefused⟩

/-- Something is big, said under some id. -/
def bigness (id : String) (subject : Concept) : Graph :=
  ((Graph.empty.addConcepts [subject, .known "big"]).addRelations
    [{ id, triple := ⟨subject.id, "is", "big"⟩ }]).graph

/-- The oak is bound to the unknown. -/
def oakBound : Binding := .ofList [("?x", "oak")]

/-- The oak is big under another id than that under which the query asks for something big, so that a
match is made, which links the unknown to the oak; under the same id none is. -/
theorem findMatches_with_query_of_oak :
    findBindings {} (bigness "r1" (.unknown "?x")) (bigness "r2" (.known "oak")) = .ok [oakBound] ∧
      (∃ results, findMatches ⟨true, {}⟩ (bigness "r1" (.unknown "?x")) (bigness "r2" (.known "oak")) =
          .ok results ∧ results.map (·.binding) = [oakBound] ∧
        ∀ result ∈ results, result.graph.Says ⟨"?x", "matches", "oak"⟩) ∧
      ¬∃ results, findMatches ⟨true, {}⟩ (bigness "r1" (.unknown "?x"))
        (bigness "r1" (.known "oak")) = .ok results := by
  have hq : (bigness "r1" (.unknown "?x")).WellFormed :=
    (Graph.wellFormed_empty.addConcepts _).addRelations _
  have hd : ∀ id, (bigness id (.known "oak")).WellFormed := fun _ =>
    (Graph.wellFormed_empty.addConcepts _).addRelations _
  have hfound : findBindings {} (bigness "r1" (.unknown "?x")) (bigness "r2" (.known "oak")) =
      .ok [oakBound] := by decide
  have hshared : findBindings {} (bigness "r1" (.unknown "?x")) (bigness "r1" (.known "oak")) =
      .ok [oakBound] := by decide
  obtain ⟨-, -, hcompatible, hlinked, -⟩ := findMatches_with_query hq (hd "r2") hfound
  obtain ⟨-, -, hclash, -, -⟩ := findMatches_with_query hq (hd "r1") hshared
  obtain ⟨results, hresults⟩ := hcompatible.mpr (List.forall_mem_singleton.mpr (by decide))
  obtain ⟨hbindings, hlinks⟩ := hlinked results hresults
  refine ⟨hfound, ⟨results, hresults, hbindings, fun result hr => ?_⟩, fun hmade => ?_⟩
  · have hbound : result.binding = oakBound :=
      List.mem_singleton.mp (hbindings ▸ List.mem_map_of_mem hr)
    have hsaid := (hlinks result hr "?x" (by decide)).2.2
    rw [hbound] at hsaid
    exact hsaid
  · have hfits := hclash.mp hmade oakBound List.mem_cons_self
    exact absurd hfits (by decide)

/-- A search that finds bindings does not always succeed with the query beside its matches: it is refused
where a query relation has the id of a relation of the data that answers it. -/
theorem not_findMatches_of_shared_id :
    ¬∀ (query data : Graph) (limits : SearchLimits) (found : List Binding), query.WellFormed →
      data.WellFormed → findBindings limits query data = .ok found →
      ∃ results, findMatches ⟨true, limits⟩ query data = .ok results := by
  intro hall
  have hwell : ∀ subject, (bigness "r1" subject).WellFormed := fun _ =>
    (Graph.wellFormed_empty.addConcepts _).addRelations _
  have hfound : findBindings {} (bigness "r1" (.unknown "?x")) (bigness "r1" (.known "oak")) =
      .ok [oakBound] := by decide
  obtain ⟨results, hresults⟩ := hall _ _ {} _ (hwell _) (hwell _) hfound
  have hnone : (findMatches ⟨true, {}⟩ (bigness "r1" (.unknown "?x"))
      (bigness "r1" (.known "oak"))).toOption.isSome = false := by decide
  rw [hresults] at hnone
  cases hnone

end Matching

end KnowledgeGraph
