import KnowledgeGraph.Proofs.Matching.Enumeration
import Mathlib.Data.Set.Insert

/-!
# Unknown concepts of the data

Data may hold unknown concepts itself, and relations that touch them. A search looks at these relations
when it asks whether an unknown of the query may take a candidate, and so it may try other candidates
and more of them. No embedding comes or goes: an embedding leads into known concepts alone, and no
relation between these is said any more. Main statement: a search answers with the same bindings in the
same order, whatever unknown concepts and relations that touch them the data gains.
-/

namespace KnowledgeGraph

namespace Graph

variable {data g g' : Graph} {added : Set String} {concept : Concept} {relation : Relation}
  {id : String}

/-- A graph has what the data has, unknown concepts under some ids that the data leaves free, and
relations that touch these. -/
structure GainsUnknowns (data : Graph) (added : Set String) (larger : Graph) : Prop where
  /-- The data has no concept under such an id. -/
  fresh : ∀ id ∈ added, data.concepts.get? id = none
  /-- The graph has an unknown one. -/
  unknown : ∀ id ∈ added, ∃ concept, larger.concepts.get? id = some concept ∧ concept.isUnknown = true
  /-- Under any other id the concept is that of the data. -/
  concepts_eq : ∀ id, id ∉ added → larger.concepts.get? id = data.concepts.get? id
  /-- The relations of the data stay. -/
  kept : ∀ id relation, data.relations.get? id = some relation →
    larger.relations.get? id = some relation
  /-- A relation that the data does not have touches an unknown concept that it does not have. -/
  gained : ∀ id relation, larger.relations.get? id = some relation →
    data.relations.get? id = none →
      relation.triple.source ∈ added ∨ relation.triple.target ∈ added

/-- The data itself gains nothing. -/
theorem GainsUnknowns.refl (data : Graph) : data.GainsUnknowns ∅ data where
  fresh := nofun
  unknown := nofun
  concepts_eq _ _ := rfl
  kept _ _ hg := hg
  gained _ _ hg hn := by
    rw [hn] at hg
    cases hg

/-- An unknown concept may be added under an id that is free in the data. -/
theorem GainsUnknowns.addConcept (h : data.GainsUnknowns added g) (hu : concept.isUnknown = true)
    (hn : data.concepts.get? concept.id = none) :
    data.GainsUnknowns (insert concept.id added) (g.addConcept concept) where
  fresh := by
    rintro id (rfl | hid)
    · exact hn
    · exact h.fresh id hid
  unknown := by
    have hlaid : (g.laidOver concept).isUnknown = true := by
      unfold laidOver
      cases g.concept? concept.id <;> exact hu
    intro id hid
    rw [get?_addConcept]
    split
    next => exact ⟨_, rfl, hlaid⟩
    next other => exact h.unknown id (hid.resolve_left (Ne.symm other))
  concepts_eq := by
    intro id hid
    rw [Set.mem_insert_iff, not_or] at hid
    rw [get?_addConcept, if_neg (Ne.symm hid.1)]
    exact h.concepts_eq id hid.2
  kept := h.kept
  gained id relation hg hfree :=
    (h.gained id relation hg hfree).imp (Set.mem_insert_of_mem _) (Set.mem_insert_of_mem _)

/-- A relation may be added under an id that is free in the data, if it touches an added concept. -/
theorem GainsUnknowns.addRelation (h : data.GainsUnknowns added g)
    (ha : g.addRelation relation = .ok g') (hn : data.relations.get? relation.id = none)
    (ht : relation.triple.source ∈ added ∨ relation.triple.target ∈ added) :
    data.GainsUnknowns added g' where
  fresh := h.fresh
  unknown := by
    rw [addRelation_concepts ha]
    exact h.unknown
  concepts_eq := by
    rw [addRelation_concepts ha]
    exact h.concepts_eq
  kept := by
    intro id old hg
    have hne : relation.id ≠ id := by
      rintro rfl
      rw [hn] at hg
      cases hg
    rw [get?_addRelation_of_ne ha hne]
    exact h.kept id old hg
  gained := by
    intro id found hg hfree
    by_cases same : relation.id = id
    · subst same
      obtain ⟨stored, hs, htriple⟩ := get?_addRelation_self ha
      rw [hg] at hs
      cases hs
      rw [htriple]
      exact ht
    · rw [get?_addRelation_of_ne ha same] at hg
      exact h.gained id found hg hfree

/-- Unknown concepts may be added under ids that are free in the data. -/
theorem GainsUnknowns.addConcepts {unknowns : List Concept} (h : data.GainsUnknowns added g)
    (hu : ∀ concept ∈ unknowns,
      concept.isUnknown = true ∧ data.concepts.get? concept.id = none) :
    data.GainsUnknowns (added ∪ {id | ∃ concept ∈ unknowns, concept.id = id})
      (g.addConcepts unknowns) := by
  induction unknowns generalizing added g with
  | nil => simpa [Graph.addConcepts] using h
  | cons head rest ih =>
    obtain ⟨hhead, hrest⟩ := List.forall_mem_cons.mp hu
    have hids : added ∪ {id | ∃ concept ∈ head :: rest, concept.id = id} =
        insert head.id added ∪ {id | ∃ concept ∈ rest, concept.id = id} := by
      ext id
      simp [or_left_comm, or_assoc, eq_comm]
    rw [hids, Graph.addConcepts, List.foldl_cons]
    exact ih (h.addConcept hhead.1 hhead.2) hrest

/-- Relations that touch the added concepts may be added under ids that are free in the data. -/
theorem GainsUnknowns.addRelations {relations : List Relation} (h : data.GainsUnknowns added g)
    (ha : (g.addRelations relations).toExcept = .ok g')
    (hr : ∀ relation ∈ relations, data.relations.get? relation.id = none ∧
      (relation.triple.source ∈ added ∨ relation.triple.target ∈ added)) :
    data.GainsUnknowns added g' := by
  induction relations generalizing g with
  | nil =>
    rw [← (toExcept_eq_ok.mp ha).2]
    exact h
  | cons head rest ih =>
    obtain ⟨next, hnext, hrest⟩ := addRelations_cons_eq_ok.mp ha
    obtain ⟨hhead, htail⟩ := List.forall_mem_cons.mp hr
    exact ih (h.addRelation hnext hhead.1 hhead.2) hrest htail

/-- A known id is one of the data. -/
theorem GainsUnknowns.mem_knownIds_iff (h : data.GainsUnknowns added g) (hd : data.WellFormed)
    (hg : g.WellFormed) : id ∈ g.knownIds ↔ id ∈ data.knownIds := by
  rw [hg.mem_knownIds, hd.mem_knownIds]
  by_cases hid : id ∈ added
  · obtain ⟨concept, hc, hu⟩ := h.unknown id hid
    simp [h.fresh id hid, hc, hu]
  · rw [h.concepts_eq id hid]

/-- No known id was added. -/
theorem GainsUnknowns.not_mem_of_known (h : data.GainsUnknowns added g) (hd : data.WellFormed)
    (hk : id ∈ data.knownIds) : id ∉ added := by
  intro hid
  obtain ⟨concept, hc, -⟩ := hd.mem_knownIds.mp hk
  rw [h.fresh id hid] at hc
  cases hc

/-- The graph says what the data says and triples that touch an added concept. -/
theorem GainsUnknowns.says_iff (h : data.GainsUnknowns added g) {triple : Triple}
    (hs : triple.source ∉ added) (ht : triple.target ∉ added) : g.Says triple ↔ data.Says triple := by
  rw [Graph.says_iff, Graph.says_iff]
  constructor
  · rintro ⟨id, relation, hg, rfl⟩
    cases hfree : data.relations.get? id with
    | none => exact ((h.gained id relation hg hfree).elim hs ht).elim
    | some old =>
      have hold := h.kept id old hfree
      rw [hg] at hold
      cases hold
      exact ⟨id, relation, hfree, rfl⟩
  · rintro ⟨id, relation, hg, rfl⟩
    exact ⟨id, relation, h.kept id relation hg, rfl⟩

end Graph

namespace Matching

variable {query data larger : Graph} {added : Set String} {binding : Binding} {limits : SearchLimits}

/-- No concept of the query stands for one of some ids, if none of these is known to the query and no
unknown is bound to one. -/
theorem resolve_not_mem (hq : query.WellFormed) (hkeys : binding.keys = query.unknownIds)
    (hk : ∀ id ∈ query.knownIds, id ∉ added)
    (hb : ∀ unknown bound, binding.get? unknown = some bound → bound ∉ added) {id : String}
    (hc : query.hasConcept id = true) : binding.resolve id ∉ added := by
  rcases hq.mem_knownIds_or hc with hknown | hunknown
  · rw [resolve_known hq hkeys hknown]
    exact hk id hknown
  · rw [← hkeys] at hunknown
    obtain ⟨bound, hbound⟩ := Dict.contains_iff.mp (Dict.mem_keys.mp hunknown)
    rw [Binding.resolve, hbound]
    exact hb id bound hbound

/-- A query is embedded as before in data that gains unknown concepts, if none of them stands under an
id that is known to the query. -/
theorem embeds_iff_of_gainsUnknowns (hq : query.WellFormed) (hd : data.WellFormed)
    (hl : larger.WellFormed) (h : data.GainsUnknowns added larger)
    (hk : ∀ id ∈ query.knownIds, id ∉ added) :
    Embeds query larger binding ↔ Embeds query data binding := by
  have hpresent : ∀ id ∈ query.knownIds, larger.hasConcept id = data.hasConcept id := by
    intro id hid
    rw [Graph.hasConcept, Dict.contains, h.concepts_eq id (hk id hid)]
    rfl
  -- The ends of what an embedding asks for are known, and the added ids are not.
  have hholds (hkeys : binding.keys = query.unknownIds)
      (hb : ∀ unknown bound, binding.get? unknown = some bound → bound ∈ data.knownIds) :
      ∀ relation ∈ query.relationList, larger.Says (binding.resolveTriple relation.triple) ↔
        data.Says (binding.resolveTriple relation.triple) := by
    intro relation hr
    have hg := hq.mem_relationList.mp hr
    have haway : ∀ unknown bound, binding.get? unknown = some bound → bound ∉ added :=
      fun unknown bound hbound => h.not_mem_of_known hd (hb unknown bound hbound)
    exact h.says_iff (resolve_not_mem hq hkeys hk haway (hq.source_mem _ relation hg))
      (resolve_not_mem hq hkeys hk haway (hq.target_mem _ relation hg))
  constructor
  · intro he
    have hb : ∀ unknown bound, binding.get? unknown = some bound → bound ∈ data.knownIds :=
      fun unknown bound hbound => (h.mem_knownIds_iff hd hl).mp (he.known unknown bound hbound)
    refine ⟨he.keys_eq, hb, he.free, he.injective, ?_, ?_⟩
    · intro id hid
      rw [← hpresent id hid]
      exact he.present id hid
    · intro relation hr
      exact (hholds he.keys_eq hb relation hr).mp (he.holds relation hr)
  · intro he
    refine ⟨he.keys_eq, ?_, he.free, he.injective, ?_, ?_⟩
    · intro unknown bound hbound
      exact (h.mem_knownIds_iff hd hl).mpr (he.known unknown bound hbound)
    · intro id hid
      rw [hpresent id hid]
      exact he.present id hid
    · intro relation hr
      exact (hholds he.keys_eq he.known relation hr).mpr (he.holds relation hr)

/-- The embeddings into data that gains unknown concepts are listed as before. -/
theorem embeddings_of_gainsUnknowns (hq : query.WellFormed) (hd : data.WellFormed)
    (hl : larger.WellFormed) (h : data.GainsUnknowns added larger)
    (hk : ∀ id ∈ query.knownIds, id ∉ added) : embeddings query larger = embeddings query data := by
  refine eq_of_values_ascending (embeddings_ascending hq hl) (embeddings_ascending hq hd)
    fun binding => ?_
  rw [mem_embeddings_iff hq hl, mem_embeddings_iff hq hd]
  exact embeds_iff_of_gainsUnknowns hq hd hl h hk

/-- Unknown concepts of the data do not show in bindings: when data gains unknown concepts, and with
them relations that touch them, then of two searches with the same limits, before and after, that both
answer, the second gives the bindings of the first in the same order, if none of the concepts stands
under an id that is known to the query. -/
theorem findBindings_of_gainsUnknowns {found found' : List Binding} (hq : query.WellFormed)
    (hd : data.WellFormed) (hl : larger.WellFormed) (h : data.GainsUnknowns added larger)
    (hk : ∀ id ∈ query.knownIds, id ∉ added) (hf : findBindings limits query data = .ok found)
    (hf' : findBindings limits query larger = .ok found') : found' = found := by
  rw [eq_take_of_findBindings hq hl hf', eq_take_of_findBindings hq hd hf,
    embeddings_of_gainsUnknowns hq hd hl h hk]

/-- The colours with a shade that is unknown, between green and the colours. -/
def shades : Graph :=
  ((colours.addConcepts [.unknown "?shade"]).addRelations
    ([⟨"green", "is", "?shade"⟩, ⟨"?shade", "is", "colour"⟩].map .ofTriple)).graph

/-- Green is tried for the first hop, now that something comes after it, and it is not bound. -/
theorem findBindings_of_gainsUnknowns_of_shades :
    twoHops.WellFormed ∧ colours.WellFormed ∧ shades.WellFormed ∧
      colours.GainsUnknowns {"?shade"} shades ∧ "?shade" ∉ twoHops.knownIds ∧
      ∃ found found', findBindings {} twoHops colours = .ok found ∧
        findBindings {} twoHops shades = .ok found' ∧ found.length = 1 ∧ found' = found := by
  have hq : twoHops.WellFormed := Graph.wellFormed_ofStatements _ _
  have hd : colours.WellFormed := Graph.wellFormed_ofStatements _ _
  have hl : shades.WellFormed := (hd.addConcepts _).addRelations _
  have hadded : ∅ ∪ {id | ∃ concept ∈ [Concept.unknown "?shade"], concept.id = id} =
      ({"?shade"} : Set String) := by
    ext id
    simp [Concept.unknown, eq_comm]
  have hunknowns : colours.GainsUnknowns {"?shade"} (colours.addConcepts [.unknown "?shade"]) := by
    rw [← hadded]
    exact (Graph.GainsUnknowns.refl colours).addConcepts (by decide)
  have hends : ∀ relation ∈ [⟨"green", "is", "?shade"⟩, ⟨"?shade", "is", "colour"⟩].map Relation.ofTriple,
      colours.relations.get? relation.id = none ∧
        (relation.triple.source = "?shade" ∨ relation.triple.target = "?shade") := by decide
  have hgains : colours.GainsUnknowns {"?shade"} shades := hunknowns.addRelations rfl hends
  have hn : "?shade" ∉ twoHops.knownIds := by decide
  have hk : ∀ id ∈ twoHops.knownIds, id ∉ ({"?shade"} : Set String) := by
    rintro id hid rfl
    exact hn hid
  have hfound : findBindings {} twoHops colours =
      .ok [Dict.ofList [("?a", "sky"), ("?b", "blue")]] := by decide
  have hfound' : findBindings {} twoHops shades =
      .ok [Dict.ofList [("?a", "sky"), ("?b", "blue")]] := by decide
  exact ⟨hq, hd, hl, hgains, hn, _, _, hfound, hfound', rfl,
    findBindings_of_gainsUnknowns hq hd hl hgains hk hfound hfound'⟩

end Matching

end KnowledgeGraph
