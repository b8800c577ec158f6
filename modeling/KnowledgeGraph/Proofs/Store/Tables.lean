import KnowledgeGraph.Proofs.Store.Rows
import KnowledgeGraph.Store.Basic

/-!
# Tables that hold a graph

Tables represent a graph when their rows are its concepts and relations and the index gives for each
named relation the id of its triple. Each operation on tables answers what the operation on the graph
answers and leaves tables that represent the graph it leaves. A refused `save` is the one exception:
the tables stay as they were.
-/

namespace KnowledgeGraph

/-- From the rows of a graph's concepts and relations is read what was written to them. -/
structure Graph.Rereads (g : Graph) : Prop where
  /-- From the row of a concept the concept is read. -/
  concept_row : ∀ id concept, g.concepts.get? id = some concept →
    Tables.readConcept (Tables.conceptRow concept) = .ok concept
  /-- From the row of a relation the relation is read. -/
  relation_row : ∀ id relation, g.relations.get? id = some relation →
    Tables.readRelation (Tables.relationRow relation) = .ok relation

namespace Tables

variable {tables tables' : Tables} {g : Graph} {concept : Concept} {relation : Relation}

/-- The rows are the concepts and relations of the graph, and the index gives the triple id of each
named relation. -/
structure Represents (tables : Tables) (g : Graph) : Prop where
  /-- The graph is well-formed. -/
  wellFormed : g.WellFormed
  /-- Its rows hold what was written. -/
  rereads : g.Rereads
  /-- The rows of concepts are those of the graph. -/
  concepts_eq : tables.concepts = g.concepts
  /-- The rows of relations are those of the graph. -/
  relations_eq : tables.relations = g.relations
  /-- The index is that of the named relations. -/
  named_eq : ∀ id, tables.named.get? id =
    ((g.relations.get? id).filter (·.isNamed)).map (·.triple.id)

/-- An index gives for each named relation the id of its triple, and nothing else. -/
def Indexes (named : Dict String) (relations : Dict Relation) : Prop :=
  ∀ id, named.get? id = ((relations.get? id).filter (·.isNamed)).map (·.triple.id)

/-- An index follows when a relation is set under its id, if what stood there had that id and said the
same. -/
theorem Indexes.insert {named : Dict String} {relations : Dict Relation} (h : Indexes named relations)
    (hsame : ∀ existing, relations.get? relation.id = some existing →
      existing.id = relation.id ∧ existing.triple = relation.triple) :
    Indexes (if relation.isNamed then named.insert relation.id relation.triple.id else named)
      (relations.insert relation.id relation) := by
  intro key
  rw [Dict.get?_insert]
  by_cases hk : relation.id = key
  · subst hk
    rw [if_pos rfl, Option.filter_some]
    by_cases hn : relation.isNamed = true
    · rw [if_pos hn, if_pos hn, Dict.get?_insert, if_pos rfl, Option.map_some]
    · rw [if_neg hn, if_neg hn, h]
      cases he : relations.get? relation.id with
      | none => rfl
      | some existing =>
        obtain ⟨hid, htriple⟩ := hsame existing he
        have hnot : ¬existing.isNamed = true := by
          unfold Relation.isNamed at hn ⊢
          rwa [hid, htriple]
        rw [Option.filter_some, if_neg hnot]
  · rw [if_neg hk]
    by_cases hn : relation.isNamed = true
    · rw [if_pos hn, Dict.get?_insert, if_neg hk, h]
    · rw [if_neg hn, h]

/-- An index follows when keys are removed from it and from the relations. -/
theorem Indexes.eraseAll {named : Dict String} {relations : Dict Relation} (h : Indexes named relations)
    (keys : List String) : Indexes (keys.foldl Dict.erase named) (keys.foldl Dict.erase relations) := by
  intro key
  rw [Dict.get?_foldl_erase, Dict.get?_foldl_erase]
  split
  next => rfl
  next => exact h key

/-- Rows hold what is written to them when they keep the metadata of the graph. -/
theorem rereads_iff : g.Rereads ↔ g.Carries Kept := by
  constructor
  · intro h
    exact ⟨fun id concept hg => readConcept_conceptRow.mp (h.concept_row id concept hg),
      fun id relation hg => readRelation_relationRow.mp (h.relation_row id relation hg)⟩
  · intro h
    exact ⟨fun id concept hg => readConcept_conceptRow.mpr (h.concept id concept hg),
      fun id relation hg => readRelation_relationRow.mpr (h.relation id relation hg)⟩

/-- A row that keeps the metadata of its concept is the concept. -/
theorem conceptRow_eq_self (h : Kept concept.metadata) : conceptRow concept = concept :=
  (readRow_eq_ok.mp (readConcept_conceptRow.mpr h)).1.symm

/-- A row that keeps the metadata of its relation is the relation. -/
theorem relationRow_eq_self (h : Kept relation.metadata) : relationRow relation = relation :=
  (readRow_eq_ok.mp (readRelation_relationRow.mpr h)).1.symm

/-- A graph has rows that hold what is written if those of its listed concepts and relations do. -/
theorem rereads_of_lists
    (hc : ∀ concept ∈ g.conceptList, readConcept (conceptRow concept) = .ok concept)
    (hr : ∀ relation ∈ g.relationList, readRelation (relationRow relation) = .ok relation) :
    g.Rereads where
  concept_row id concept hg := hc concept (Dict.mem_values.mpr ⟨id, hg⟩)
  relation_row id relation hg := hr relation (Dict.mem_values.mpr ⟨id, hg⟩)

/-- Concepts are saved and then relations. An empty graph is not looked at, and has nothing to save. -/
theorem save_eq (tables : Tables) (g : Graph) :
    tables.save g =
      g.conceptList.foldlM saveConcept tables >>= g.relationList.foldlM saveRelation := by
  unfold save
  split
  next hempty =>
    obtain ⟨hc, hr⟩ := Bool.and_eq_true_iff.mp hempty
    have hcnil : g.conceptList = [] := by
      rw [Graph.conceptList, Dict.values, List.isEmpty_iff.mp hc, List.map_nil]
    have hrnil : g.relationList = [] := by
      rw [Graph.relationList, Dict.values, List.isEmpty_iff.mp hr, List.map_nil]
    rw [hcnil, hrnil]
    rfl
  next => rfl

/-- New tables represent the empty graph. -/
theorem represents_new : new.Represents .empty where
  wellFormed := Graph.wellFormed_empty
  rereads := ⟨nofun, nofun⟩
  concepts_eq := rfl
  relations_eq := rfl
  named_eq _ := rfl

namespace Represents

/-- The rows keep the metadata of the graph. -/
theorem carries (h : tables.Represents g) : g.Carries Kept := rereads_iff.mp h.rereads

/-- The graph of all rows is the one the tables represent. -/
theorem load_eq (h : tables.Represents g) : tables.load = .ok g := by
  rw [load_of_rows h.wellFormed h.concepts_eq h.relations_eq]
  exact if_pos (h.carries.imp fun _ hm => hm.2)

/-- The concept under an id is read as it is in the graph. -/
theorem concept?_eq (h : tables.Represents g) (id : String) : tables.concept? id = .ok (g.concept? id) := by
  refine lookUp_eq_ok.mpr ⟨?_, fun concept hc => ?_⟩
  · rw [h.concepts_eq, Graph.concept?]
  · rw [h.concepts_eq] at hc
    exact (h.carries.concept id concept hc).2

/-- The relation under an id is read as it is in the graph. -/
theorem relation?_eq (h : tables.Represents g) (id : String) :
    tables.relation? id = .ok (g.relation? id) := by
  refine lookUp_eq_ok.mpr ⟨?_, fun relation hr => ?_⟩
  · rw [h.relations_eq, Graph.relation?]
  · rw [h.relations_eq] at hr
    exact (h.carries.relation id relation hr).2

/-- The ends of a triple are required of the tables as of the graph. -/
theorem requireEnds_eq (h : tables.Represents g) (triple : Triple) :
    tables.requireEnds triple = (do
      discard <| g.requireConcept triple.source
      discard <| g.requireConcept triple.target) := by
  unfold requireEnds
  rw [h.concepts_eq]
  by_cases hs : g.hasConcept triple.source = true
  · obtain ⟨source, hsource⟩ := Graph.hasConcept_iff.mp hs
    rw [Graph.requireConcept_eq_ok.mpr hsource, Dict.contains_of_get? hsource]
    by_cases ht : g.hasConcept triple.target = true
    · obtain ⟨target, htarget⟩ := Graph.hasConcept_iff.mp ht
      rw [Graph.requireConcept_eq_ok.mpr htarget, Dict.contains_of_get? htarget]
      rfl
    · rw [Graph.requireConcept_of_absent ht, show g.concepts.contains triple.target = false from Bool.eq_false_iff.mpr ht]
      rfl
  · rw [Graph.requireConcept_of_absent hs, show g.concepts.contains triple.source = false from Bool.eq_false_iff.mpr hs]
    rfl

/-- A row says a triple when the relation under the id does. -/
theorem rowSays_eq (h : tables.Represents g) (triple : Triple) (id : String) :
    tables.rowSays triple id =
      .ok ((g.relation? id).any fun relation => decide (relation.triple = triple)) := by
  rw [rowSays, h.relation?_eq]
  rfl

/-- The tables find a triple when the graph does. -/
theorem hasTriple_eq (h : tables.Represents g) (triple : Triple) :
    tables.hasTriple triple = .ok (g.hasTriple triple) := by
  have hindexed : ∀ rows : List (String × String),
      (rows.anyM fun row => tables.rowSays triple row.1) =
        .ok (rows.any fun row => (g.relation? row.1).any fun relation =>
          decide (relation.triple = triple)) := by
    intro rows
    simp only [h.rowSays_eq]
    exact List.anyM_pure
  rw [hasTriple, h.rowSays_eq, hindexed]
  refine (apply_ite Except.ok _ _ _).symm.trans (congrArg Except.ok ?_)
  rw [Bool.eq_iff_iff, h.wellFormed.hasTriple_iff]
  simp only [Bool.if_true_left, Bool.or_eq_true, decide_eq_true_eq, List.any_eq_true,
    List.mem_filter, Option.any_eq_true, Graph.relation?]
  constructor
  · rintro (⟨relation, hr, ht⟩ | ⟨row, -, relation, hr, ht⟩)
    · exact ⟨relation, Dict.mem_values.mpr ⟨_, hr⟩, ht⟩
    · exact ⟨relation, Dict.mem_values.mpr ⟨_, hr⟩, ht⟩
  · rintro ⟨relation, hr, rfl⟩
    have hg := h.wellFormed.mem_relationList.mp hr
    by_cases hn : relation.id = relation.triple.id
    · exact .inl ⟨relation, hn ▸ hg, rfl⟩
    · have hrow : tables.named.get? relation.id = some relation.triple.id := by
        have hnamed : relation.isNamed = true := decide_eq_true hn
        rw [h.named_eq, hg, Option.filter_some, if_pos hnamed, Option.map_some]
      exact .inr ⟨(relation.id, relation.triple.id), ⟨Dict.mem_entries.mpr hrow, rfl⟩, relation, hg, rfl⟩

/-- A concept whose row keeps its metadata may be set under its id in both. -/
theorem insertConcept (h : tables.Represents g) {id : String} (hi : concept.id = id)
    (hc : Kept concept.metadata) :
    { tables with concepts := tables.concepts.insert id concept }.Represents
      { g with concepts := g.concepts.insert id concept } where
  wellFormed := h.wellFormed.insertConcept hi
  rereads := rereads_iff.mpr (h.carries.insertConcept hc id)
  concepts_eq := by rw [h.concepts_eq]
  relations_eq := h.relations_eq
  named_eq := h.named_eq

/-- A concept is created in the tables when it is created in the graph. -/
theorem createConcept (h : tables.Represents g) (id : String) :
    (tables.createConcept id).1 = (g.addConceptIfAbsent id (.known id)).1 ∧
      (tables.createConcept id).2.Represents (g.addConceptIfAbsent id (.known id)).2 := by
  unfold Tables.createConcept Graph.addConceptIfAbsent Graph.hasConcept
  rw [h.concepts_eq]
  by_cases hc : g.concepts.contains id = true
  · rw [if_pos hc, if_pos hc]
    exact ⟨rfl, h⟩
  · rw [if_neg hc, if_neg hc]
    have hi := @insertConcept _ _ (.known id) h id rfl lasting_kept.empty
    rw [h.concepts_eq] at hi
    exact ⟨rfl, hi⟩

/-- Saving a concept to its row is adding it to the graph. -/
theorem saveConcept (h : tables.Represents g) (hc : Kept concept.metadata) :
    ∃ tables', tables.saveConcept concept = .ok tables' ∧ tables'.Represents (g.addConcept concept) := by
  have hlaid : Kept (g.laidOver concept).metadata := by
    unfold Graph.laidOver Graph.concept?
    cases he : g.concepts.get? concept.id with
    | none => exact hc
    | some existing => exact lasting_kept.extend _ _ (h.carries.concept _ existing he) hc
  have hread : ∀ existing, tables.concepts.get? concept.id = some existing → Fits existing.metadata := by
    rw [h.concepts_eq]
    exact fun existing he => (h.carries.concept _ existing he).2
  have hrow : conceptRow (Concept.over (tables.concepts.get? concept.id) concept) =
      g.laidOver concept := by
    rw [h.concepts_eq]
    exact conceptRow_eq_self hlaid
  refine ⟨_, saveConcept_eq_ok.mpr ⟨hread, rfl⟩, ?_⟩
  rw [hrow]
  exact h.insertConcept (h.wellFormed.laidOver_id concept) hlaid

/-- Saving concepts is adding them to the graph. -/
theorem saveConcepts {concepts : List Concept} (h : tables.Represents g)
    (hc : ∀ concept ∈ concepts, Kept concept.metadata) :
    ∃ tables', concepts.foldlM Tables.saveConcept tables = .ok tables' ∧
      tables'.Represents (g.addConcepts concepts) := by
  induction concepts generalizing tables g with
  | nil => exact ⟨tables, rfl, h⟩
  | cons concept rest ih =>
    obtain ⟨hfirst, hrest⟩ := List.forall_mem_cons.mp hc
    obtain ⟨next, hnext, hrep⟩ := h.saveConcept hfirst
    rw [List.foldlM_cons, hnext]
    exact ih hrep hrest

/-- A relation whose row keeps its metadata may be set under its id in both, if what stood there said
the same. -/
theorem insertRelation {named : Dict Unit} (h : tables.Represents g) (hr : Kept relation.metadata)
    (hsame : ∀ existing, g.relations.get? relation.id = some existing →
      existing.triple = relation.triple)
    (hw : { g with relations := g.relations.insert relation.id relation, named }.WellFormed) :
    { tables with
      relations := tables.relations.insert relation.id relation
      named := if relation.isNamed then tables.named.insert relation.id relation.triple.id
        else tables.named }.Represents
      { g with relations := g.relations.insert relation.id relation, named } where
  wellFormed := hw
  rereads := rereads_iff.mpr (h.carries.insertRelation hr _ _)
  concepts_eq := h.concepts_eq
  relations_eq := by rw [h.relations_eq]
  named_eq := Indexes.insert h.named_eq fun existing he =>
    ⟨h.wellFormed.relation_id _ _ he, hsame existing he⟩

/-- Saving a relation between stored concepts is adding it to the graph, or both refuse its id. -/
theorem saveRelation (h : tables.Represents g) (hr : Kept relation.metadata)
    (hs : g.hasConcept relation.triple.source = true)
    (ht : g.hasConcept relation.triple.target = true) :
    (∃ g' tables', g.addRelation relation = .ok g' ∧ tables.saveRelation relation = .ok tables' ∧
        tables'.Represents g') ∨
      g.addRelation relation = .error (.duplicateRelation relation.id) ∧
        tables.saveRelation relation = .error (.duplicateRelation relation.id) := by
  have hadd := Graph.addRelation_of_ends hs ht
  unfold Tables.saveRelation
  rw [h.relation?_eq, Graph.relation?, h.relations_eq]
  cases he : g.relations.get? relation.id with
  | none =>
    rw [he] at hadd
    have hfresh : ∀ existing, g.relations.get? relation.id = some existing →
        existing.triple = relation.triple := by
      intro existing hsome
      rw [he] at hsome
      cases hsome
    have hrep := h.insertRelation hr hfresh (h.wellFormed.putRelation hs ht he)
    rw [h.relations_eq] at hrep
    refine .inl ⟨g.putRelation relation, _, hadd, rfl, ?_⟩
    rw [relationRow_eq_self hr]
    exact hrep
  | some existing =>
    by_cases hsame : existing.triple = relation.triple
    · simp only [he, if_pos hsame] at hadd
      have hexisting := h.wellFormed.relation_id _ _ he
      have hid : (existing.annotate relation.metadata).id = relation.id := hexisting
      have htriple : (existing.annotate relation.metadata).triple = relation.triple := hsame
      have hnamed : (existing.annotate relation.metadata).isNamed = relation.isNamed := by
        unfold Relation.isNamed
        rw [hid, htriple]
      have hrow : Kept (existing.annotate relation.metadata).metadata :=
        lasting_kept.extend _ _ (h.carries.relation _ existing he) hr
      have hspoken : ∀ other, g.relations.get? (existing.annotate relation.metadata).id = some other →
          other.triple = (existing.annotate relation.metadata).triple := by
        intro other ho
        rw [hid, he] at ho
        cases ho
        rfl
      have hw := h.wellFormed.addRelation hadd
      rw [← hid] at hw
      have hrep := h.insertRelation hrow hspoken hw
      rw [hid, htriple, hnamed, h.relations_eq] at hrep
      refine .inl ⟨_, _, hadd, ?_, hrep⟩
      simp only [if_pos hsame, bind, Except.bind]
      rw [relationRow_eq_self hrow]
    · simp only [he, if_neg hsame] at hadd
      refine .inr ⟨hadd, ?_⟩
      simp only [if_neg hsame, bind, Except.bind]

/-- The relation of a triple is created in the tables when it is added to the graph, and refused for
the same reason. -/
theorem createRelation (h : tables.Represents g) (triple : Triple) :
    (∃ created g' tables', g.addTripleIfAbsent triple = .ok (created, g') ∧
        tables.createRelation triple = .ok (created, tables') ∧ tables'.Represents g') ∨
      ∃ fault, g.addTripleIfAbsent triple = .error fault ∧
        tables.createRelation triple = .error fault := by
  unfold Tables.createRelation Graph.addTripleIfAbsent
  rw [h.requireEnds_eq, h.hasTriple_eq, h.relations_eq]
  by_cases hs : g.hasConcept triple.source = true
  · obtain ⟨source, hsource⟩ := Graph.hasConcept_iff.mp hs
    rw [Graph.requireConcept_eq_ok.mpr hsource]
    by_cases ht : g.hasConcept triple.target = true
    · obtain ⟨target, htarget⟩ := Graph.hasConcept_iff.mp ht
      rw [Graph.requireConcept_eq_ok.mpr htarget]
      by_cases hsaid : g.hasTriple triple = true
      · rw [hsaid]
        exact .inl ⟨false, g, tables, rfl, rfl, h⟩
      · rw [Bool.eq_false_iff.mpr hsaid]
        have hadd := @Graph.addRelation_of_ends g (.ofTriple triple) hs ht
        cases he : g.relations.get? triple.id with
        | none =>
          have hid : g.relations.get? (Relation.ofTriple triple).id = none := he
          rw [hid] at hadd
          have hfresh : ∀ existing, g.relations.get? (Relation.ofTriple triple).id = some existing →
              existing.triple = (Relation.ofTriple triple).triple := by
            intro existing hsome
            rw [hid] at hsome
            cases hsome
          have hplain : ¬(Relation.ofTriple triple).isNamed = true := by
            simp [Relation.isNamed, Relation.ofTriple]
          have hrep := h.insertRelation lasting_kept.empty hfresh
            (h.wellFormed.putRelation hs ht hid)
          rw [if_neg hplain, h.relations_eq] at hrep
          have hnone : ¬g.relations.contains triple.id = true := Dict.get?_eq_none.mp he
          rw [if_neg hnone, hadd]
          exact .inl ⟨true, _, _, rfl, rfl, hrep⟩
        | some existing =>
          have hid : g.relations.get? (Relation.ofTriple triple).id = some existing := he
          have hother : ¬existing.triple = (Relation.ofTriple triple).triple := by
            intro same
            exact hsaid (h.wellFormed.hasTriple_iff.mpr
              ⟨existing, Dict.mem_values.mpr ⟨_, he⟩, same⟩)
          rw [hid] at hadd
          simp only [if_neg hother] at hadd
          rw [if_pos (Dict.contains_of_get? he), hadd]
          exact .inr ⟨_, rfl, rfl⟩
    · rw [Graph.requireConcept_of_absent ht]
      exact .inr ⟨_, rfl, rfl⟩
  · rw [Graph.requireConcept_of_absent hs]
    exact .inr ⟨_, rfl, rfl⟩

/-- Deleting a concept in memory leaves what does not touch it, also if it is not there. -/
theorem deleteConcept_memory (h : g.WellFormed) (id : String) :
    ∃ g', (Store.memory g).deleteConcept id = .ok (.memory g') ∧ g'.WellFormed ∧
      g'.concepts = g.concepts.erase id ∧
      g'.relations = g.relations.filter fun _ relation => !relation.touches id .both := by
  cases hr : g.removeConcept id with
  | ok removed =>
    have hm : (Store.memory g).deleteConcept id = .ok (.memory removed.2) := by
      simp only [Store.deleteConcept, hr]
    refine ⟨removed.2, hm, h.removeConcept hr, ?_, ?_⟩
    · rw [Graph.removeConcept_eq_ok hr]
    · rw [Graph.removeConcept_eq_ok hr]
  | error fault =>
    have habsent : ¬g.hasConcept id = true := by
      intro hc
      obtain ⟨concept, hg⟩ := Graph.hasConcept_iff.mp hc
      unfold Graph.removeConcept at hr
      rw [Graph.requireConcept_eq_ok.mpr hg] at hr
      cases hr
    have hm : (Store.memory g).deleteConcept id = .ok (.memory g) := by
      simp only [Store.deleteConcept, hr]
    refine ⟨g, hm, h, ?_, ?_⟩
    · ext key : 1
      rw [Dict.get?_erase]
      split
      next same => rw [same, Dict.get?_eq_none.mpr habsent]
      next => rfl
    · ext key : 1
      rw [Dict.get?_filter]
      cases hg : g.relations.get? key with
      | none => rfl
      | some relation =>
        have hs : relation.triple.source ≠ id := fun same =>
          habsent (same ▸ h.source_mem key relation hg)
        have ht : relation.triple.target ≠ id := fun same =>
          habsent (same ▸ h.target_mem key relation hg)
        rw [Option.filter_some]
        simp [Relation.touches, hs, ht]

/-- Deleting a concept with its relations leaves tables of what remains. -/
theorem deleteConcept (h : tables.Represents g) (id : String) :
    ∃ g' tables', (Store.memory g).deleteConcept id = .ok (.memory g') ∧
      tables.deleteConcept id = .ok tables' ∧ tables'.Represents g' := by
  obtain ⟨g', hm, hw, hc, hr⟩ := deleteConcept_memory h.wellFormed id
  have hread : ∀ row ∈ tables.relations.entries, Fits row.2.metadata := by
    rw [h.relations_eq]
    exact fun row hrow => (h.carries.relation row.1 row.2 (Dict.mem_entries.mp hrow)).2
  have hcarries : g'.Carries Kept := by
    refine h.carries.of_sub (fun key concept hg => ?_) fun key relation hg => ?_
    · rw [hc, Dict.get?_erase] at hg
      split at hg
      next => cases hg
      next => exact hg
    · rw [hr, Dict.get?_filter, Option.filter_eq_some_iff] at hg
      exact hg.1
  refine ⟨g', _, hm, (Tables.deleteConcept_eq tables id).trans (if_pos hread), hw,
    rereads_iff.mpr hcarries, ?_, ?_, ?_⟩
  · rw [hc, h.concepts_eq]
  · rw [hr, h.relations_eq]
  · rw [hr, h.relations_eq, ← Dict.foldl_erase_keys_filter]
    exact Indexes.eraseAll h.named_eq _

/-- Emptied tables represent the empty graph. -/
theorem clear (tables : Tables) : tables.clear.Represents .empty where
  wellFormed := Graph.wellFormed_empty
  rereads := ⟨nofun, nofun⟩
  concepts_eq := rfl
  relations_eq := rfl
  named_eq _ := rfl

/-- Saving relations between stored concepts is adding them to the graph, up to the first that both
refuse. -/
theorem saveRelations {relations : List Relation} (h : tables.Represents g)
    (hr : ∀ relation ∈ relations, Kept relation.metadata)
    (he : ∀ relation ∈ relations, g.hasConcept relation.triple.source = true ∧
      g.hasConcept relation.triple.target = true) :
    (∃ tables', (g.addRelations relations).fault = none ∧
        relations.foldlM Tables.saveRelation tables = .ok tables' ∧
        tables'.Represents (g.addRelations relations).graph) ∨
      ∃ id, (g.addRelations relations).fault = some (.duplicateRelation id) ∧
        relations.foldlM Tables.saveRelation tables = .error (.duplicateRelation id) := by
  induction relations generalizing tables g with
  | nil => exact .inl ⟨tables, rfl, rfl, h⟩
  | cons relation rest ih =>
    obtain ⟨hs, ht⟩ := he relation List.mem_cons_self
    rw [Graph.addRelations, List.foldlM_cons]
    rcases h.saveRelation (hr relation List.mem_cons_self) hs ht with
      ⟨next, tables', hadd, hsave, hrep⟩ | ⟨hadd, hsave⟩
    · rw [hadd, hsave]
      refine ih hrep (fun other ho => hr other (List.mem_cons_of_mem _ ho)) ?_
      intro other ho
      unfold Graph.hasConcept
      rw [Graph.addRelation_concepts hadd]
      exact he other (List.mem_cons_of_mem _ ho)
    · rw [hadd, hsave]
      exact .inr ⟨relation.id, rfl, rfl⟩

/-- Saving a graph is merging it into the one represented, or both refuse the same relation id. -/
theorem save {other : Graph} (h : tables.Represents g) (ho : other.WellFormed)
    (hr : other.Rereads) :
    (∃ tables', (g.merge other).fault = none ∧ tables.save other = .ok tables' ∧
        tables'.Represents (g.merge other).graph) ∨
      ∃ id, (g.merge other).fault = some (.duplicateRelation id) ∧
        tables.save other = .error (.duplicateRelation id) := by
  obtain ⟨hconcepts, hrelations⟩ := Graph.carries_iff.mp (rereads_iff.mp hr)
  have hhas : ∀ id, other.hasConcept id = true →
      (g.addConcepts other.conceptList).hasConcept id = true :=
    fun id hid => Graph.hasConcept_addConcepts.mpr (.inl (ho.exists_mem_conceptList.mpr hid))
  have hends : ∀ relation ∈ other.relationList,
      (g.addConcepts other.conceptList).hasConcept relation.triple.source = true ∧
      (g.addConcepts other.conceptList).hasConcept relation.triple.target = true := by
    intro relation hm
    have hg := ho.mem_relationList.mp hm
    exact ⟨hhas _ (ho.source_mem _ _ hg), hhas _ (ho.target_mem _ _ hg)⟩
  obtain ⟨next, hnext, hrep⟩ := h.saveConcepts hconcepts
  rw [save_eq, hnext]
  exact hrep.saveRelations hrelations hends

end Represents

end Tables

end KnowledgeGraph
