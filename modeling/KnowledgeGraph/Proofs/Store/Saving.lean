import KnowledgeGraph.Proofs.Graph.Extension
import KnowledgeGraph.Proofs.Store.Consistency
import KnowledgeGraph.Proofs.Store.Rules

/-!
# Saving an extension of the stored graph

A graph that extends the stored one replaces it when it is saved, and saving it cannot fail. A store in
memory holds the graph then as it is, and a store in tables holds what is read from the text of its rows,
if they can be read, which is the graph just when the rows hold what was written to them.
-/

namespace KnowledgeGraph

/-- The graph that is read from the rows to which a graph is written. -/
def Graph.reread (g : Graph) : Graph :=
  { g with
    concepts := g.concepts.map Tables.conceptRow
    relations := g.relations.map Tables.relationRow }

/-- The rows of a graph can be read when its metadata can. -/
theorem Graph.Carries.reread {g : Graph} (h : g.Carries Tables.Fits) : g.reread.Carries Tables.Fits where
  concept id concept hg := by
    rw [Graph.reread, Dict.get?_map, Option.map_eq_some_iff] at hg
    obtain ⟨written, hw, rfl⟩ := hg
    exact Tables.fits_map_reread.mpr (h.concept id written hw)
  relation id relation hg := by
    rw [Graph.reread, Dict.get?_map, Option.map_eq_some_iff] at hg
    obtain ⟨written, hw, rfl⟩ := hg
    exact Tables.fits_map_reread.mpr (h.relation id written hw)

/-- What is read from rows that can be read is what was written when the rows hold it. -/
theorem Graph.reread_eq_self {g : Graph} (h : g.Carries Tables.Fits) : g.reread = g ↔ g.Rereads := by
  rw [Tables.rereads_iff]
  constructor
  · intro hsame
    have hconcepts := Dict.map_eq_self.mp (congrArg Graph.concepts hsame)
    have hrelations := Dict.map_eq_self.mp (congrArg Graph.relations hsame)
    exact ⟨fun id concept hg =>
        ⟨congrArg Concept.metadata (hconcepts id concept hg), h.concept id concept hg⟩,
      fun id relation hg =>
        ⟨congrArg Relation.metadata (hrelations id relation hg), h.relation id relation hg⟩⟩
  · intro hkept
    have hconcepts := Dict.map_eq_self.mpr fun id concept hg =>
      Tables.conceptRow_eq_self (hkept.concept id concept hg)
    have hrelations := Dict.map_eq_self.mpr fun id relation hg =>
      Tables.relationRow_eq_self (hkept.relation id relation hg)
    rw [reread, hconcepts, hrelations]

/-- Rows of a well-formed graph are a well-formed graph. -/
theorem Graph.WellFormed.reread {g : Graph} (h : g.WellFormed) : g.reread.WellFormed := by
  have hrelation : ∀ {id relation}, g.reread.relations.get? id = some relation →
      ∃ written, g.relations.get? id = some written ∧ Tables.relationRow written = relation := by
    intro id relation hg
    rwa [Graph.reread, Dict.get?_map, Option.map_eq_some_iff] at hg
  have hcontains : ∀ id, g.reread.concepts.contains id = g.concepts.contains id :=
    Dict.contains_map _ _
  refine ⟨?_, ?_, ?_, ?_, ?_⟩
  · intro id concept hg
    rw [Graph.reread, Dict.get?_map, Option.map_eq_some_iff] at hg
    obtain ⟨written, hw, rfl⟩ := hg
    exact h.concept_id id written hw
  · intro id relation hg
    obtain ⟨written, hw, rfl⟩ := hrelation hg
    exact h.relation_id id written hw
  · intro id relation hg
    obtain ⟨written, hw, rfl⟩ := hrelation hg
    rw [hcontains]
    exact h.source_mem id written hw
  · intro id relation hg
    obtain ⟨written, hw, rfl⟩ := hrelation hg
    rw [hcontains]
    exact h.target_mem id written hw
  · intro id
    change g.named.contains id = true ↔ _
    rw [h.named_iff]
    constructor
    · rintro ⟨written, hw, hn⟩
      refine ⟨Tables.relationRow written, ?_, hn⟩
      rw [Graph.reread, Dict.get?_map, hw, Option.map_some]
    · rintro ⟨relation, hg, hn⟩
      obtain ⟨written, hw, rfl⟩ := hrelation hg
      exact ⟨written, hw, hn⟩

namespace Tables

variable {tables : Tables} {g : Graph}

/-- Concepts that are saved are laid over their rows and written. -/
theorem saveConcepts_eq {concepts : List Concept} (h : tables.Readable)
    (hc : ∀ concept ∈ concepts, Fits concept.metadata) :
    concepts.foldlM saveConcept tables = .ok
      { tables with
        concepts := tables.concepts.layAll (·.id)
          (fun existing concept => conceptRow (Concept.over existing concept)) concepts } := by
  induction concepts generalizing tables with
  | nil => rfl
  | cons head rest ih =>
    obtain ⟨hhead, hrest⟩ := List.forall_mem_cons.mp hc
    have hsave := saveConcept_eq_ok.mpr ⟨h.concept head.id, rfl⟩
    rw [List.foldlM_cons, hsave]
    exact ih (h.saveConcept hhead hsave) hrest

/-- Relations that say what their rows say are saved: their metadata is laid over that of the rows, and
they are written. -/
theorem saveRelations_eq {relations : List Relation} (h : tables.Readable)
    (hr : ∀ relation ∈ relations, Fits relation.metadata) (hn : (relations.map (·.id)).Nodup)
    (hs : ∀ relation ∈ relations, ∀ existing,
      tables.relations.get? relation.id = some existing → existing.triple = relation.triple) :
    ∃ named, relations.foldlM saveRelation tables = .ok
      { tables with
        relations := tables.relations.layAll (·.id)
          (fun existing relation => relationRow (Relation.over existing relation)) relations
        named } := by
  induction relations generalizing tables with
  | nil => exact ⟨tables.named, rfl⟩
  | cons head rest ih =>
    obtain ⟨hhead, hrest⟩ := List.nodup_cons.mp hn
    obtain ⟨hfirst, hothers⟩ := List.forall_mem_cons.mp hs
    obtain ⟨hfits, hfitting⟩ := List.forall_mem_cons.mp hr
    have hsave := saveRelation_eq_ok.mpr
      ⟨fun existing he => ⟨h.relation head.id existing he, hfirst existing he⟩, rfl⟩
    rw [List.foldlM_cons, hsave]
    refine ih (h.saveRelation hfits hsave) hfitting hrest fun relation hr existing he => ?_
    have hne : head.id ≠ relation.id := fun same =>
      hhead (List.mem_map.mpr ⟨relation, hr, same.symm⟩)
    rw [Dict.get?_insert, if_neg hne] at he
    exact hothers relation hr existing he

/-- An extension of the graph of the rows can be saved, if it can be read and they can, and is what is
loaded then, as far as its rows hold it. -/
theorem save_of_extendedBy (hread : tables.Readable) (he : tables.rows.ExtendedBy g) (hg : g.WellFormed)
    (hf : g.Carries Fits) :
    ∃ tables', tables.save g = .ok tables' ∧ tables'.load = .ok g.reread := by
  obtain ⟨hfitting, hfitting'⟩ := Graph.carries_iff.mp hf
  have hsame : ∀ relation ∈ g.relationList, ∀ existing,
      tables.relations.get? relation.id = some existing → existing.triple = relation.triple := by
    intro relation hr existing hexisting
    obtain ⟨kept, hk, ht⟩ := he.keptBy relation.id existing.triple ⟨existing, hexisting, rfl⟩
    rw [hg.mem_relationList.mp hr] at hk
    cases hk
    exact ht.symm
  have hconcepts : tables.concepts.layAll (·.id)
      (fun existing concept => conceptRow (Concept.over existing concept)) g.conceptList =
        g.concepts.map conceptRow :=
    Dict.layAll_values hg.concept_id he.contains_concept fun id concept hn =>
      congrArg conceptRow (he.concept_over hn)
  have hrelations : tables.relations.layAll (·.id)
      (fun existing relation => relationRow (Relation.over existing relation)) g.relationList =
        g.relations.map relationRow :=
    Dict.layAll_values hg.relation_id he.contains_relation fun id relation hn =>
      congrArg relationRow (he.relation_over hn)
  have hfirst := saveConcepts_eq hread hfitting
  rw [hconcepts] at hfirst
  have hnext := hread.foldlM (fun _ _ _ h hc hs => h.saveConcept hc hs) hfitting hfirst
  obtain ⟨named, hsave⟩ := saveRelations_eq hnext hfitting' hg.nodup_relationIds hsame
  rw [hrelations] at hsave
  have hwell := hg.reread
  have hkeyed : Keyed { tables with
      concepts := g.concepts.map conceptRow, relations := g.relations.map relationRow, named } :=
    ⟨hwell.concept_id, hwell.relation_id, hwell.source_mem, hwell.target_mem⟩
  have hsaved := save_eq tables g
  rw [hfirst] at hsaved
  refine ⟨_, hsaved.trans hsave, ?_⟩
  refine hkeyed.load_eq_ok.mpr ⟨(hkeyed.wellFormed_rows.eq_of_parts hwell rfl rfl).symm, ?_⟩
  exact ⟨hf.reread.concept, hf.reread.relation⟩

/-- A well-formed graph that can be read can be saved to new tables, which are consistent then, and is what
is loaded from them, as far as its rows hold it. -/
theorem save_new_eq (hg : g.WellFormed) (hf : g.Carries Fits) :
    ∃ tables, Tables.new.save g = .ok tables ∧ tables.Consistent ∧ tables.load = .ok g.reread := by
  obtain ⟨tables, hsave, hload⟩ : ∃ tables, Tables.new.save g = .ok tables ∧
      tables.load = .ok g.reread := save_of_extendedBy readable_of_empty ⟨nofun, nofun⟩ hg hf
  exact ⟨tables, hsave, Consistent.save consistent_of_empty hg hsave, hload⟩

end Tables

namespace Store

variable {store : Store} {g g' : Graph}

/-- A store is sound when its graph is well-formed or its tables are consistent. -/
def Sound : Store → Prop
  | .memory g => g.WellFormed
  | .durable tables => tables.Consistent

/-- What a store holds of a graph that is written to it. -/
def written : Store → Graph → Graph
  | .memory _, g => g
  | .durable _, g => g.reread

/-- A store can read a graph that is written to it: in memory always, in rows if its metadata goes not too
deep. -/
def Reads : Store → Graph → Prop
  | .memory _, _ => True
  | .durable _, g => g.Carries Tables.Fits

/-- What is read of a graph is the graph itself just when the store takes it up as it is. -/
theorem written_eq_self (h : store.Reads g) : store.written g = g ↔ store.TakesUp g := by
  cases store with
  | memory stored => exact ⟨fun _ => trivial, fun _ => rfl⟩
  | durable tables => exact Graph.reread_eq_self h

/-- The graph that is loaded from a sound store is well-formed, and the store can read it. -/
theorem Sound.of_load (h : store.Sound) (hl : store.load = .ok g) : g.WellFormed ∧ store.Reads g := by
  cases store with
  | memory stored =>
    cases hl
    exact ⟨h, trivial⟩
  | durable tables =>
    have hkeyed : tables.Keyed := Tables.Consistent.toKeyed h
    obtain ⟨rfl, hread⟩ := hkeyed.load_eq_ok.mp hl
    exact ⟨hkeyed.wellFormed_rows, hread⟩

/-- Saving a well-formed graph leaves a sound store, also if it is refused. -/
theorem Sound.save (h : store.Sound) (hg : g.WellFormed) : (store.save g).1.Sound := by
  cases store with
  | memory stored => exact Graph.WellFormed.merge h g
  | durable tables =>
    rw [Store.save]
    cases hsave : tables.save g with
    | ok tables' => exact Tables.Consistent.save h hg hsave
    | error fault => exact h

/-- Emptying leaves a sound store. -/
theorem Sound.clear (store : Store) : store.clear.Sound := by
  cases store with
  | memory stored => exact Graph.wellFormed_empty
  | durable tables => exact Tables.consistent_of_empty

/-- A graph that extends the stored one and can be read is saved without fault and takes its place. -/
theorem Sound.save_of_extendedBy (h : store.Sound) (hl : store.load = .ok g) (he : g.ExtendedBy g')
    (hg : g'.WellFormed) (hr : store.Reads g') :
    ∃ after, store.save g' = (after, none) ∧ after.load = .ok (store.written g') := by
  cases store with
  | memory stored =>
    cases hl
    refine ⟨.memory g', ?_, rfl⟩
    rw [Store.save, he.merge_eq h hg]
  | durable tables =>
    obtain ⟨rfl, hread⟩ := (Tables.Consistent.toKeyed h).load_eq_ok.mp hl
    obtain ⟨tables', hsave, hload⟩ := Tables.save_of_extendedBy hread he hg hr
    refine ⟨.durable tables', ?_, hload⟩
    rw [Store.save, hsave]

end Store

end KnowledgeGraph
