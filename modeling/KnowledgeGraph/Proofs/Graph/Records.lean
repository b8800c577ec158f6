import KnowledgeGraph.Proofs.Graph.Reachable
import KnowledgeGraph.Proofs.Graph.Substitution

/-!
# Reading records

A record is read just when it fits: its relations lead between its concepts, and where it lists several
relations with one id these say the same. If it lists every id once, the graph has just what is listed, and
nothing depends on the order. Main statement: `toGraph_spec`, with the way back from the record of a graph.
-/

namespace KnowledgeGraph.GraphRecord

variable {record other : GraphRecord} {g : Graph} {id : String} {concept : Concept} {relation : Relation}

/-- A record fits when its relations lead between its concepts and no id stands for two triples. -/
structure Fits (record : GraphRecord) : Prop where
  /-- A relation leaves a listed concept. -/
  source_mem : ∀ relation ∈ record.relations, relation.triple.source ∈ record.concepts.map (·.id)
  /-- A relation enters a listed concept. -/
  target_mem : ∀ relation ∈ record.relations, relation.triple.target ∈ record.concepts.map (·.id)
  /-- Relations with one id say the same. -/
  triple_eq : ∀ first ∈ record.relations, ∀ second ∈ record.relations,
    first.id = second.id → first.triple = second.triple

/-- Lists of the same members fit alike. -/
theorem Fits.of_subset (h : record.Fits) (hc : record.concepts ⊆ other.concepts)
    (hr : other.relations ⊆ record.relations) : other.Fits where
  source_mem relation hm := List.map_subset _ hc (h.source_mem relation (hr hm))
  target_mem relation hm := List.map_subset _ hc (h.target_mem relation (hr hm))
  triple_eq first hf second hs := h.triple_eq first (hr hf) second (hr hs)

/-- The concepts of a record that is read are the listed ones. -/
theorem concepts_of_toGraph (h : record.toGraph = .ok g) :
    g.concepts = (Graph.empty.addConcepts record.concepts).concepts := by
  rw [← (Graph.toExcept_eq_ok.mp h).2, Graph.addRelations_concepts]

/-- A concept of the graph of a record is a listed one. -/
theorem hasConcept_of_toGraph (h : record.toGraph = .ok g) :
    g.hasConcept id = true ↔ id ∈ record.concepts.map (·.id) := by
  rw [Graph.hasConcept, concepts_of_toGraph h, ← Graph.hasConcept, Graph.hasConcept_addConcepts,
    List.mem_map]
  exact or_iff_left Bool.false_ne_true

/-- A record that is read fits. -/
theorem fits_of_toGraph (h : record.toGraph = .ok g) : record.Fits := by
  have hw := Graph.wellFormed_ofRecord h
  have hkept : ∀ relation ∈ record.relations,
      ∃ kept, g.relations.get? relation.id = some kept ∧ kept.triple = relation.triple :=
    fun relation hr => Graph.get?_addRelations_of_mem h hr
  refine ⟨fun relation hr => ?_, fun relation hr => ?_, fun first hf second hs same => ?_⟩
  · obtain ⟨kept, hg, htriple⟩ := hkept relation hr
    rw [← hasConcept_of_toGraph h, ← htriple]
    exact hw.source_mem _ _ hg
  · obtain ⟨kept, hg, htriple⟩ := hkept relation hr
    rw [← hasConcept_of_toGraph h, ← htriple]
    exact hw.target_mem _ _ hg
  · obtain ⟨kept, hg, htriple⟩ := hkept first hf
    obtain ⟨kept', hg', htriple'⟩ := hkept second hs
    rw [same, hg', Option.some.injEq] at hg
    rw [← htriple, ← htriple', hg]

/-- The relations of a record that fits lead between concepts that are there once its concepts are. -/
theorem Fits.ends (h : record.Fits) : ∀ relation ∈ record.relations,
    (Graph.empty.addConcepts record.concepts).hasConcept relation.triple.source = true ∧
      (Graph.empty.addConcepts record.concepts).hasConcept relation.triple.target = true := by
  intro relation hr
  simp only [Graph.hasConcept_addConcepts, ← List.mem_map]
  exact ⟨.inl (h.source_mem relation hr), .inl (h.target_mem relation hr)⟩

/-- A record is read just if it fits. -/
theorem exists_toGraph_iff : (∃ g, record.toGraph = .ok g) ↔ record.Fits := by
  refine ⟨fun ⟨g, h⟩ => fits_of_toGraph h, fun h => ⟨_, Graph.toExcept_eq_ok.mpr ⟨?_, rfl⟩⟩⟩
  rw [Graph.addRelations_fault_eq_none_iff h.ends]
  refine ⟨List.pairwise_of_forall_mem_list h.triple_eq, fun relation _ stored hg => ?_⟩
  rw [Graph.addConcepts_relations] at hg
  cases hg

/-- A record lists every id once when no two of its concepts and no two of its relations have one id. -/
structure ListsOnce (record : GraphRecord) : Prop where
  /-- The concepts have ids of their own. -/
  nodup_concepts : (record.concepts.map (·.id)).Nodup
  /-- The relations have ids of their own. -/
  nodup_relations : (record.relations.map (·.id)).Nodup

/-- The concepts of a record that lists every id once stand in its graph as they are listed. -/
theorem ListsOnce.get?_concepts (hn : record.ListsOnce) (h : record.toGraph = .ok g) :
    g.concepts.get? id = some concept ↔ concept ∈ record.concepts ∧ concept.id = id := by
  rw [concepts_of_toGraph h, Graph.get?_addConcepts_of_fresh hn.nodup_concepts fun _ _ => rfl]
  exact or_iff_left nofun

/-- The relations of a record that lists every id once stand in its graph as they are listed. -/
theorem ListsOnce.get?_relations (hn : record.ListsOnce) (h : record.toGraph = .ok g) :
    g.relations.get? id = some relation ↔ relation ∈ record.relations ∧ relation.id = id := by
  have hnone : ∀ id, (Graph.empty.addConcepts record.concepts).relations.get? id = none := by
    intro id
    rw [Graph.addConcepts_relations]
    rfl
  rw [← (Graph.toExcept_eq_ok.mp h).2, (Graph.addRelations_of_fresh hn.nodup_relations (fun _ _ => hnone _)
    (fits_of_toGraph h).ends).2, hnone]
  exact or_iff_left nofun

/-- The same lists in another order list every id once too. -/
theorem ListsOnce.perm (hn : record.ListsOnce) (hc : record.concepts.Perm other.concepts)
    (hr : record.relations.Perm other.relations) : other.ListsOnce :=
  ⟨(hc.map _).nodup_iff.mp hn.nodup_concepts, (hr.map _).nodup_iff.mp hn.nodup_relations⟩

/-- A record that lists every id once is read as the same graph in any order. -/
theorem ListsOnce.toGraph_of_perm (hn : record.ListsOnce) (hc : record.concepts.Perm other.concepts)
    (hr : record.relations.Perm other.relations) (h : record.toGraph = .ok g) :
    other.toGraph = .ok g := by
  have hn' := hn.perm hc hr
  have hfits := (fits_of_toGraph h).of_subset hc.subset hr.symm.subset
  obtain ⟨g', h'⟩ := exists_toGraph_iff.mpr hfits
  have hconcepts : g'.concepts = g.concepts := by
    ext id concept
    rw [hn'.get?_concepts h', hn.get?_concepts h, hc.mem_iff]
  have hrelations : g'.relations = g.relations := by
    ext id relation
    rw [hn'.get?_relations h', hn.get?_relations h, hr.mem_iff]
  have hw := Graph.wellFormed_ofRecord h
  rw [h', (Graph.wellFormed_ofRecord h').eq_of_parts hw hconcepts hrelations]

/-- Every graph that can be reached is read from its record as it is, with its index. A record is read just
if its relations lead between its concepts and relations with one id say the same. And where every id is
listed once, the graph does not depend on the order of the lists. -/
theorem toGraph_spec :
    (∀ g, Graph.Reachable g → (ofGraph g).toGraph = .ok g) ∧
    (∀ record : GraphRecord, (∃ g, record.toGraph = .ok g) ↔ record.Fits) ∧
    ∀ record other : GraphRecord, record.ListsOnce → record.concepts.Perm other.concepts →
      record.relations.Perm other.relations → ∀ g, record.toGraph = .ok g ↔ other.toGraph = .ok g := by
  refine ⟨fun g h => h.wellFormed.toGraph_ofGraph, fun record => exists_toGraph_iff, ?_⟩
  intro record other hn hc hr g
  exact ⟨hn.toGraph_of_perm hc hr, (hn.perm hc hr).toGraph_of_perm hc.symm hr.symm⟩

/-- A ferry and two buses between two places; one bus has a name of its own, and so has the ferry, which
has a fare. -/
def lines : GraphRecord :=
  ⟨[{ Concept.known "quay" with description := "The old quay" }, .known "market", .ofReference "?pier"],
    [⟨"night bus", ⟨"quay", "bus", "market"⟩, .empty⟩, .ofTriple ⟨"quay", "bus", "market"⟩,
      ⟨"ferry", ⟨"?pier", "boat", "quay"⟩, Dict.ofList [("fare", .string "two shillings")]⟩]⟩

/-- The lines are read in any order, and what is read comes back from its record, the names in the index;
without the concepts they are not read. -/
theorem toGraph_spec_of_lines : ∃ g, Graph.Reachable g ∧ lines.ListsOnce ∧ lines.toGraph = .ok g ∧
    (GraphRecord.mk lines.concepts.reverse lines.relations.reverse).toGraph = .ok g ∧
    (ofGraph g).toGraph = .ok g ∧ g.named.keys = ["ferry", "night bus"] ∧ g.relations.size = 3 ∧
    ¬∃ g, (GraphRecord.mk [] lines.relations).toGraph = .ok g := by
  obtain ⟨hback, hfits, hperm⟩ := toGraph_spec
  have hlines : lines.Fits := by
    constructor <;> decide +kernel
  have hn : lines.ListsOnce := by
    constructor <;> decide +kernel
  obtain ⟨g, hg⟩ := (hfits lines).mpr hlines
  have hreached : Graph.Reachable g := .ofRecord hg
  have hturned := (hperm lines ⟨lines.concepts.reverse, lines.relations.reverse⟩ hn
    (List.reverse_perm _).symm (List.reverse_perm _).symm g).mp hg
  have hindex : (lines.toGraph.toOption.map fun g => (g.named.keys, g.relations.size)) =
      some (["ferry", "night bus"], 3) := by decide +kernel
  rw [hg] at hindex
  obtain ⟨hnamed, hsize⟩ := Prod.mk.inj (Option.some.inj hindex)
  refine ⟨g, hreached, hn, hg, hturned, hback g hreached, hnamed, hsize, fun hread => ?_⟩
  exact absurd (((hfits _).mp hread).source_mem _ List.mem_cons_self) List.not_mem_nil

end KnowledgeGraph.GraphRecord
