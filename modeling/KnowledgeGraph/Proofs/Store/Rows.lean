import KnowledgeGraph.Proofs.Graph.Extension
import KnowledgeGraph.Proofs.Graph.Metadata
import KnowledgeGraph.Proofs.Json.Nesting
import KnowledgeGraph.Proofs.Results
import KnowledgeGraph.Store.Tables

/-!
# Rows that can be read

A row is written whatever it holds, but one whose metadata goes too deep is not read any more. What is
looked at row by row is therefore found as it is written or not at all. Main statement: rows that are
those of a well-formed graph are loaded as this graph when all of them can be read, and if not the one
fault is that a row is unreadable.
-/

namespace KnowledgeGraph.Tables

variable {tables tables' : Tables} {g : Graph} {metadata : Dict Json}
  {concept : Concept} {relation : Relation}

/-- Metadata can be read from a row when the reader gives its value at the depth that is left there. -/
theorem fits_iff :
    Fits metadata ↔ ((Json.ofDict metadata).source.value? metadataDepth).isSome = true :=
  (Json.isSome_value?_iff _ _).symm

/-- Rows without metadata can be read, and so can metadata laid over other metadata if both can. -/
theorem lasting_fits : Graph.Lasting Fits where
  empty := by decide
  extend _ _ hm ho := Json.nesting_extend_le hm ho

/-- Writing metadata does not change whether it can be read. -/
theorem fits_map_reread : Fits (metadata.map Json.reread) ↔ Fits metadata := by
  unfold Fits
  rw [Json.nesting_ofDict_map Json.nesting_reread]

/-- A row keeps metadata that is read from it as it was written. -/
def Kept (metadata : Dict Json) : Prop := metadata.map Json.reread = metadata ∧ Fits metadata

/-- What rows keep lasts: no metadata at all is kept, and metadata laid over other metadata if both are. -/
theorem lasting_kept : Graph.Lasting Kept where
  empty := ⟨rfl, lasting_fits.empty⟩
  extend _ _ hm ho :=
    ⟨Dict.map_extend_eq_self hm.1 ho.1, lasting_fits.extend _ _ hm.2 ho.2⟩

section Reading

variable {α : Type} {content : α → Dict Json} {row found : α}

/-- A row that can be read holds what was written. -/
theorem readRow_of_fits (h : Fits (content row)) : readRow content row = .ok row := if_pos h

/-- A row that goes too deep cannot be read. -/
theorem readRow_of_not_fits (h : ¬Fits (content row)) : readRow content row = .error .unreadable :=
  if_neg h

/-- What is read from a row is the row, which can be read. -/
theorem readRow_eq_ok : readRow content row = .ok found ↔ found = row ∧ Fits (content row) := by
  by_cases h : Fits (content row)
  · rw [readRow_of_fits h, Except.ok.injEq]
    exact ⟨fun same => ⟨same.symm, h⟩, fun ⟨same, _⟩ => same.symm⟩
  · rw [readRow_of_not_fits h]
    exact iff_of_false nofun fun ⟨_, hfits⟩ => h hfits

/-- Rows are read one after the other, all of them or up to the first that cannot be read. -/
theorem mapM_readRow (content : α → Dict Json) (rows : List α) :
    rows.mapM (readRow content) =
      if ∀ row ∈ rows, Fits (content row) then .ok rows else .error .unreadable := by
  induction rows with
  | nil => rfl
  | cons row rows ih =>
    rw [List.mapM_cons, ih]
    simp only [List.forall_mem_cons]
    by_cases h : Fits (content row)
    · rw [readRow_of_fits h]
      by_cases hall : ∀ other ∈ rows, Fits (content other)
      · rw [if_pos hall, if_pos ⟨h, hall⟩]
        rfl
      · rw [if_neg hall, if_neg fun hboth => hall hboth.2]
        rfl
    · simp only [readRow_of_not_fits h, h, false_and, if_false]
      rfl

/-- What is read under a key is what stands there, which can be read. -/
theorem lookUp_eq_ok {table : Dict α} {key : String} {result : Option α} :
    lookUp (readRow content) table key = .ok result ↔
      result = table.get? key ∧ ∀ row, table.get? key = some row → Fits (content row) := by
  unfold lookUp
  cases table.get? key with
  | none =>
    rw [Except.ok.injEq]
    exact ⟨fun same => ⟨same.symm, nofun⟩, fun ⟨same, _⟩ => same.symm⟩
  | some row =>
    by_cases h : Fits (content row)
    · simp only [readRow_of_fits h, Except.map, Except.ok.injEq]
      exact ⟨fun same => ⟨same.symm, fun other ho => Option.some.inj ho ▸ h⟩,
        fun ⟨same, _⟩ => same.symm⟩
    · simp only [readRow_of_not_fits h]
      exact iff_of_false nofun fun ⟨_, hfits⟩ => h (hfits row rfl)

end Reading

/-- The row of a concept holds it when it keeps its metadata. -/
theorem readConcept_conceptRow :
    readConcept (conceptRow concept) = .ok concept ↔ Kept concept.metadata := by
  unfold readConcept
  rw [readRow_eq_ok, show (conceptRow concept).metadata = concept.metadata.map Json.reread from rfl,
    fits_map_reread]
  refine and_congr_left fun _ => ?_
  cases concept
  simp [conceptRow, Concept.mapMetadata, eq_comm]

/-- The row of a relation holds it when it keeps its metadata. -/
theorem readRelation_relationRow :
    readRelation (relationRow relation) = .ok relation ↔ Kept relation.metadata := by
  unfold readRelation
  rw [readRow_eq_ok, show (relationRow relation).metadata = relation.metadata.map Json.reread from rfl,
    fits_map_reread]
  refine and_congr_left fun _ => ?_
  cases relation
  simp [relationRow, Relation.mapMetadata, eq_comm]

/-- A triple is there already, and the tables stay, or its relation is entered under a free id. -/
theorem createRelation_eq_ok {triple : Triple} {created : Bool}
    (h : tables.createRelation triple = .ok (created, tables')) :
    tables' = tables ∨
      tables.requireEnds triple = .ok () ∧ tables.relations.get? triple.id = none ∧
        tables' = { tables with relations := tables.relations.insert triple.id (.ofTriple triple) } := by
  unfold Tables.createRelation at h
  obtain ⟨_, hends, h⟩ := exists_of_bind_eq_ok h
  obtain ⟨_, -, h⟩ := exists_of_bind_eq_ok h
  split at h
  next =>
    cases h
    exact .inl rfl
  next =>
    split at h
    next => cases h
    next hfree =>
      cases h
      exact .inr ⟨hends, Dict.get?_eq_none.mpr hfree, rfl⟩

/-- A concept is saved if the row under its id can be read, over which it is laid and written. -/
theorem saveConcept_eq_ok : tables.saveConcept concept = .ok tables' ↔
    (∀ existing, tables.concepts.get? concept.id = some existing → Fits existing.metadata) ∧
      tables' = { tables with
        concepts := tables.concepts.insert concept.id
          (conceptRow (Concept.over (tables.concepts.get? concept.id) concept)) } := by
  unfold saveConcept
  constructor
  · intro h
    obtain ⟨found, hfound, h⟩ := exists_of_bind_eq_ok h
    obtain ⟨rfl, hfits⟩ := lookUp_eq_ok.mp hfound
    cases h
    exact ⟨hfits, rfl⟩
  · rintro ⟨hfits, rfl⟩
    rw [show tables.concept? concept.id = _ from lookUp_eq_ok.mpr ⟨rfl, hfits⟩]
    rfl

/-- A relation is saved if the row under its id can be read and says the same: its metadata is laid over
that of the row and written. The index gets a row if it is named. -/
theorem saveRelation_eq_ok : tables.saveRelation relation = .ok tables' ↔
    (∀ existing, tables.relations.get? relation.id = some existing →
      Fits existing.metadata ∧ existing.triple = relation.triple) ∧
      tables' = { tables with
        relations := tables.relations.insert relation.id
          (relationRow (Relation.over (tables.relations.get? relation.id) relation))
        named := if relation.isNamed then tables.named.insert relation.id relation.triple.id
          else tables.named } := by
  unfold saveRelation
  constructor
  · intro h
    obtain ⟨found, hfound, h⟩ := exists_of_bind_eq_ok h
    obtain ⟨rfl, hfits⟩ := lookUp_eq_ok.mp hfound
    cases he : tables.relations.get? relation.id with
    | none =>
      rw [he] at h
      cases h
      exact ⟨nofun, rfl⟩
    | some existing =>
      simp only [he] at h
      split at h
      next same =>
        cases h
        refine ⟨fun other ho => ?_, rfl⟩
        cases ho
        exact ⟨hfits existing he, same⟩
      next => cases h
  · rintro ⟨hold, rfl⟩
    rw [show tables.relation? relation.id = _ from
      lookUp_eq_ok.mpr ⟨rfl, fun existing he => (hold existing he).1⟩]
    cases he : tables.relations.get? relation.id with
    | none => rfl
    | some existing =>
      simp only [bind, Except.bind, if_pos (hold existing he).2]
      rfl

/-- All relations are looked at, or one of them cannot be read. -/
theorem scanRelations_eq : tables.scanRelations =
    if ∀ row ∈ tables.relations.entries, Fits row.2.metadata then .ok tables.relations.entries
    else .error .unreadable := by
  have hread : (fun row : String × Relation => do Except.ok (row.1, ← readRelation row.2)) =
      readRow fun row => row.2.metadata := by
    funext row
    unfold readRelation readRow
    split <;> rfl
  unfold scanRelations
  rw [hread, mapM_readRow]

/-- A concept is removed with the relations that touch it and their index rows, if all relations can be
read. -/
theorem deleteConcept_eq (tables : Tables) (id : String) : tables.deleteConcept id =
    if ∀ row ∈ tables.relations.entries, Fits row.2.metadata then
      .ok { tables with
        concepts := tables.concepts.erase id
        relations := tables.relations.filter fun _ relation => !relation.touches id .both
        named := (tables.relations.filter fun _ relation => relation.touches id .both).keys.foldl
          Dict.erase tables.named }
    else .error .unreadable := by
  unfold deleteConcept
  rw [scanRelations_eq, ← Dict.foldl_erase_keys_filter]
  split <;> rfl

/-- The second step enters the named relations in the index, if all relations can be read. -/
theorem runStep_two (tables : Tables) : runStep 2 tables =
    if ∀ row ∈ tables.relations.entries, Fits row.2.metadata then
      .ok { tables with
        named := tables.named.insertMany
          ((tables.relations.entries.filter fun row => row.2.isNamed).map fun row =>
            (row.1, row.2.triple.id)) }
    else .error (.graph .unreadable) := by
  simp only [runStep]
  rw [scanRelations_eq]
  split <;> rfl

/-- Relations that can be read and are accepted one after the other are added. -/
theorem foldlM_addRelation {relations : List Relation} (h : (g.addRelations relations).fault = none) :
    relations.foldlM (fun g row => do g.addRelation (← readRelation row)) g =
      if ∀ relation ∈ relations, Fits relation.metadata then .ok (g.addRelations relations).graph
      else .error .unreadable := by
  induction relations generalizing g with
  | nil => rfl
  | cons head rest ih =>
    rw [Graph.addRelations] at h ⊢
    rw [List.foldlM_cons]
    simp only [List.forall_mem_cons]
    unfold readRelation at ih ⊢
    by_cases hhead : Fits head.metadata
    · rw [readRow_of_fits hhead]
      cases hadd : g.addRelation head with
      | error fault =>
        simp only [hadd] at h
        cases h
      | ok next =>
        simp only [hadd] at h
        simp only [hhead, true_and]
        exact (congrArg (Except.bind · _) hadd).trans (ih h)
    · rw [readRow_of_not_fits hhead, if_neg fun hboth => hhead hboth.1]
      rfl

/-- Rows that are those of a well-formed graph are loaded as this graph when all can be read. -/
theorem load_of_rows (hw : g.WellFormed) (hc : tables.concepts = g.concepts)
    (hr : tables.relations = g.relations) :
    tables.load = if g.Carries Fits then .ok g else .error .unreadable := by
  have hrebuild := hw.rebuild
  have hfold := @foldlM_addRelation (Graph.empty.addConcepts g.conceptList) g.relationList
    (by rw [hrebuild])
  rw [hrebuild] at hfold
  have hconcepts := mapM_readRow Concept.metadata g.conceptList
  unfold load
  rw [hc, hr]
  simp only [Graph.carries_iff]
  by_cases hall : ∀ concept ∈ g.conceptList, Fits concept.metadata
  · rw [if_pos hall] at hconcepts
    simp only [and_iff_right hall]
    exact (congrArg (Except.bind · _) hconcepts).trans hfold
  · rw [if_neg hall] at hconcepts
    rw [if_neg fun hboth => hall hboth.1]
    exact congrArg (Except.bind · _) hconcepts

end KnowledgeGraph.Tables
