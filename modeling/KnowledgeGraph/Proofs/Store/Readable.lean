import KnowledgeGraph.Proofs.Store.Migration
import KnowledgeGraph.Proofs.Store.Rows

/-!
# Tables that can be read

All rows of tables can be read as long as no graph is saved to them whose metadata goes too deep. Nothing
else that happens to tables writes a row that could not be read: what is written is laid over rows that
were read.
-/

namespace KnowledgeGraph.Tables

variable {tables tables' : Tables} {g : Graph} {concept : Concept} {relation : Relation} {id : String}

/-- The graph of the rows, with the index that belongs to it. -/
def rows (tables : Tables) : Graph :=
  { concepts := tables.concepts
    relations := tables.relations
    named := (tables.relations.filter fun _ relation => relation.isNamed).map fun _ => () }

/-- All rows can be read. -/
def Readable (tables : Tables) : Prop := tables.rows.Carries Fits

instance : Decidable tables.Readable := inferInstanceAs (Decidable (tables.rows.Carries Fits))

/-- Tables without rows can be read. -/
theorem readable_of_empty {version : Nat} : Readable { version } := ⟨nofun, nofun⟩

/-- Metadata that can be read and is laid over a row that was read can be read when it is written. -/
theorem fits_conceptRow_over {found : Option Concept}
    (hf : ∀ existing, found = some existing → Fits existing.metadata) (hc : Fits concept.metadata) :
    Fits (conceptRow (Concept.over found concept)).metadata := by
  refine fits_map_reread.mpr ?_
  cases found with
  | none => exact hc
  | some existing => exact lasting_fits.extend _ _ (hf existing rfl) hc

/-- So can metadata that is laid over that of a relation. -/
theorem fits_relationRow_over {found : Option Relation}
    (hf : ∀ existing, found = some existing → Fits existing.metadata) (hr : Fits relation.metadata) :
    Fits (relationRow (Relation.over found relation)).metadata := by
  refine fits_map_reread.mpr ?_
  cases found with
  | none => exact hr
  | some existing => exact lasting_fits.extend _ _ (hf existing rfl) hr

namespace Readable

/-- The relations can be looked at one after the other. -/
theorem relations (h : tables.Readable) : ∀ row ∈ tables.relations.entries, Fits row.2.metadata :=
  fun row hr => h.relation row.1 row.2 (Dict.mem_entries.mp hr)

/-- Creating a concept leaves tables that can be read. -/
theorem createConcept (h : tables.Readable) (id : String) : (tables.createConcept id).2.Readable := by
  unfold Tables.createConcept
  split
  next => exact h
  next => exact ⟨(@h.insertConcept _ _ (.known id) lasting_fits.empty id).concept, h.relation⟩

/-- So does deleting one. -/
theorem deleteConcept (h : tables.Readable) (hd : tables.deleteConcept id = .ok tables') :
    tables'.Readable := by
  rw [deleteConcept_eq, if_pos h.relations] at hd
  cases hd
  refine h.of_sub (fun key concept hg => ?_) fun key relation hg => ?_
  · rw [rows, Dict.get?_erase] at hg
    split at hg
    next => cases hg
    next => exact hg
  · rw [rows, Dict.get?_filter, Option.filter_eq_some_iff] at hg
    exact hg.1

/-- So does creating a relation. -/
theorem createRelation {triple : Triple} {created : Bool} (h : tables.Readable)
    (hc : tables.createRelation triple = .ok (created, tables')) : tables'.Readable := by
  rcases createRelation_eq_ok hc with rfl | ⟨-, -, rfl⟩
  · exact h
  · have hrow := @h.insertRelation _ _ (.ofTriple triple) lasting_fits.empty triple.id .empty
    exact ⟨h.concept, hrow.relation⟩

/-- So does saving a concept whose metadata can be read. -/
theorem saveConcept (h : tables.Readable) (hc : Fits concept.metadata)
    (hs : tables.saveConcept concept = .ok tables') : tables'.Readable := by
  obtain ⟨hfound, rfl⟩ := saveConcept_eq_ok.mp hs
  exact ⟨(h.insertConcept (fits_conceptRow_over hfound hc) _).concept, h.relation⟩

/-- So does saving a relation whose metadata can be read. -/
theorem saveRelation (h : tables.Readable) (hr : Fits relation.metadata)
    (hs : tables.saveRelation relation = .ok tables') : tables'.Readable := by
  obtain ⟨hold, rfl⟩ := saveRelation_eq_ok.mp hs
  have hrow := fits_relationRow_over (fun existing he => (hold existing he).1) hr
  exact ⟨h.concept, (h.insertRelation hrow _ .empty).relation⟩

/-- Rows that are saved one after the other leave tables that can be read if each of them does. -/
theorem foldlM {α : Type} {save : Tables → α → Except Fault Tables} {list : List α} {good : α → Prop}
    (hstep : ∀ tables member tables', tables.Readable → good member →
      save tables member = .ok tables' → tables'.Readable)
    (h : tables.Readable) (hgood : ∀ member ∈ list, good member)
    (hs : list.foldlM save tables = .ok tables') : tables'.Readable := by
  induction list generalizing tables with
  | nil =>
    cases hs
    exact h
  | cons member rest ih =>
    obtain ⟨hfirst, hrest⟩ := List.forall_mem_cons.mp hgood
    rw [List.foldlM_cons] at hs
    obtain ⟨next, hnext, hs⟩ := exists_of_bind_eq_ok hs
    exact ih (hstep _ _ _ h hfirst hnext) hrest hs

/-- Saving a graph whose metadata can be read leaves tables that can be read. -/
theorem save (h : tables.Readable) (hg : g.Carries Fits) (hs : tables.save g = .ok tables') :
    tables'.Readable := by
  obtain ⟨hconcepts, hrelations⟩ := Graph.carries_iff.mp hg
  unfold Tables.save at hs
  split at hs
  next =>
    cases hs
    exact h
  next =>
    obtain ⟨next, hnext, hs⟩ := exists_of_bind_eq_ok hs
    have hread := h.foldlM (fun _ _ _ h hc hs => h.saveConcept hc hs) hconcepts hnext
    exact hread.foldlM (fun _ _ _ h hr hs => h.saveRelation hr hs) hrelations hs

end Readable

end KnowledgeGraph.Tables
