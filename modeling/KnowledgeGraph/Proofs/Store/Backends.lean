import KnowledgeGraph.Proofs.Store.Tables

/-!
# Agreement of the two kinds of stores

A store in memory and a store in tables that start from the same graph answer every sequence of
requests alike and hold the same graph after each, up to the first `save` that is refused. That one is
refused by both for the same relation id: the store in tables keeps what it had, the store in memory
what was added before the conflict.
-/

namespace KnowledgeGraph.Store

/-- What a store can be asked. -/
inductive Request where
  /-- To add a known concept unless there is one with the id. -/
  | createConcept (id : String)
  /-- For the concept with a key. -/
  | concept (key : String)
  /-- To remove a concept, if it is there, with the relations that touch it. -/
  | deleteConcept (id : String)
  /-- To add the relation of a triple unless some relation says it. -/
  | createRelation (triple : Triple)
  /-- For the stored graph. -/
  | load
  /-- To add a graph to the stored one. -/
  | save (g : Graph)
  /-- To remove all concepts and relations. -/
  | clear
  /-- For what the matches of a pattern cut out of the stored graph. -/
  | query (options : Matching.Options) (pattern : Graph)
  /-- For the rule with a name. -/
  | rule (name : String)

/-- What a store answers. -/
inductive Answer where
  /-- That it is done. -/
  | done
  /-- Whether something was added. -/
  | created (added : Bool)
  /-- A graph. -/
  | graph (g : Graph)
  deriving DecidableEq

/-- A graph that is to be saved is well-formed, and its rows hold what is written to them. -/
def Request.Sound : Request → Prop
  | .save g => g.WellFormed ∧ g.Rereads
  | _ => True

/-- What a store answers to a request, and the store afterwards. -/
def answer (store : Store) : Request → Except StoreFault Answer × Store
  | .createConcept id => (.ok (.created (store.createConcept id).1), (store.createConcept id).2)
  | .concept key => (((store.concept key).map .graph).mapError .graph, store)
  | .deleteConcept id =>
    match store.deleteConcept id with
    | .ok store => (.ok .done, store)
    | .error fault => (.error (.graph fault), store)
  | .createRelation triple =>
    match store.createRelation triple with
    | .ok (added, store) => (.ok (.created added), store)
    | .error fault => (.error (.graph fault), store)
  | .load => ((store.load.map .graph).mapError .graph, store)
  | .save g =>
    match store.save g with
    | (store, none) => (.ok .done, store)
    | (store, some fault) => (.error (.graph fault), store)
  | .clear => (.ok .done, store.clear)
  | .query options pattern => (((store.query options pattern).map .graph).mapError .graph, store)
  | .rule name => ((store.rule name).map .graph, store)

/-- Whether a request is a `save` that the store refuses. -/
def refuses (store : Store) : Request → Bool
  | .save g => (store.save g).2.isSome
  | _ => false

/-- Whether no `save` is refused while requests are made one after the other. -/
def accepts : Store → List Request → Bool
  | _, [] => true
  | store, request :: rest => !store.refuses request && accepts (store.answer request).2 rest

/-- The store after requests. -/
def after (store : Store) (requests : List Request) : Store :=
  requests.foldl (fun store request => (store.answer request).2) store

/-- The answer to each request, with the graph that is stored afterwards. -/
def exchanges : Store → List Request → List (Except StoreFault Answer × Except Fault Graph)
  | _, [] => []
  | store, request :: rest =>
    ((store.answer request).1, (store.answer request).2.load) ::
      exchanges (store.answer request).2 rest

section Mirroring

variable {tables : Tables} {g : Graph} {request : Request}

/-- Both kinds of stores answer a request alike and hold the same graph afterwards, unless it is a
`save` that both refuse for the same relation id. -/
theorem answer_mirrored (h : tables.Represents g) (hs : request.Sound) :
    (∃ result g' tables', (memory g).answer request = (result, .memory g') ∧
        (durable tables).answer request = (result, .durable tables') ∧ tables'.Represents g' ∧
        (memory g).refuses request = false ∧ (durable tables).refuses request = false) ∨
      ∃ other id, request = .save other ∧
        (memory g).answer request =
          (.error (.graph (.duplicateRelation id)), .memory (g.merge other).graph) ∧
        (durable tables).answer request =
          (.error (.graph (.duplicateRelation id)), .durable tables) ∧
        (memory g).refuses request = true ∧ (durable tables).refuses request = true := by
  have hload : (durable tables).load = (memory g).load := h.load_eq
  cases request with
  | createConcept id =>
    obtain ⟨hflag, hrep⟩ := h.createConcept id
    have hd : (durable tables).answer (.createConcept id) =
        (.ok (.created (tables.createConcept id).1), .durable (tables.createConcept id).2) := rfl
    rw [hflag] at hd
    exact .inl ⟨_, _, _, rfl, hd, hrep, rfl, rfl⟩
  | concept key =>
    have hconcept : (durable tables).concept key = (memory g).concept key := by
      simp only [concept, h.concept?_eq]
    refine .inl ⟨_, g, tables, rfl, ?_, h, rfl, rfl⟩
    simp only [answer, hconcept]
  | deleteConcept id =>
    obtain ⟨g', tables', hm, hd, hrep⟩ := h.deleteConcept id
    have hd' : (durable tables).deleteConcept id = .ok (.durable tables') := by
      simp only [deleteConcept, hd]
      rfl
    refine .inl ⟨.ok .done, g', tables', ?_, ?_, hrep, rfl, rfl⟩ <;> simp only [answer, hm, hd']
  | createRelation triple =>
    rcases h.createRelation triple with ⟨created, g', tables', hm, hd, hrep⟩ | ⟨fault, hm, hd⟩
    · have hm' : (memory g).createRelation triple = .ok (created, .memory g') := by
        simp only [createRelation, hm]
        rfl
      have hd' : (durable tables).createRelation triple = .ok (created, .durable tables') := by
        simp only [createRelation, hd]
        rfl
      refine .inl ⟨.ok (.created created), g', tables', ?_, ?_, hrep, rfl, rfl⟩ <;>
        simp only [answer, hm', hd']
    · have hm' : (memory g).createRelation triple = .error fault := by
        simp only [createRelation, hm]
        rfl
      have hd' : (durable tables).createRelation triple = .error fault := by
        simp only [createRelation, hd]
        rfl
      refine .inl ⟨.error (.graph fault), g, tables, ?_, ?_, h, rfl, rfl⟩ <;>
        simp only [answer, hm', hd']
  | load =>
    refine .inl ⟨_, g, tables, rfl, ?_, h, rfl, rfl⟩
    simp only [answer, hload]
  | save other =>
    rcases h.save hs.1 hs.2 with ⟨tables', hm, hd, hrep⟩ | ⟨id, hm, hd⟩
    · refine .inl ⟨.ok .done, (g.merge other).graph, tables', ?_, ?_, hrep, ?_, ?_⟩ <;>
        simp only [answer, refuses, save, hm, hd, Option.isSome_none]
    · refine .inr ⟨other, id, rfl, ?_, ?_, ?_, ?_⟩ <;>
        simp only [answer, refuses, save, hm, hd, Option.isSome_some]
  | clear =>
    exact .inl ⟨_, _, _, rfl, rfl, Tables.Represents.clear tables, rfl, rfl⟩
  | query options pattern =>
    refine .inl ⟨_, g, tables, rfl, ?_, h, rfl, rfl⟩
    simp only [answer, query, hload]
  | rule name =>
    refine .inl ⟨_, g, tables, rfl, ?_, h, rfl, rfl⟩
    simp only [answer, rule, hload]

/-- As long as no `save` is refused both kinds of stores answer alike and hold the same graphs, and
then both refuse none. -/
theorem exchanges_mirrored {requests : List Request} (h : tables.Represents g)
    (hs : ∀ request ∈ requests, request.Sound) :
    (memory g).accepts requests = (durable tables).accepts requests ∧
      ((memory g).accepts requests = true →
        (memory g).exchanges requests = (durable tables).exchanges requests ∧
        ∃ g' tables', (memory g).after requests = .memory g' ∧
          (durable tables).after requests = .durable tables' ∧ tables'.Represents g') := by
  induction requests generalizing g tables with
  | nil => exact ⟨rfl, fun _ => ⟨rfl, g, tables, rfl, rfl, h⟩⟩
  | cons request rest ih =>
    have hrest : ∀ other ∈ rest, other.Sound := fun other ho => hs other (List.mem_cons_of_mem _ ho)
    rcases answer_mirrored h (hs request List.mem_cons_self) with
      ⟨result, g', tables', hm, hd, hrep, hrm, hrd⟩ | ⟨other, id, rfl, hm, hd, hrm, hrd⟩
    · obtain ⟨haccepts, hall⟩ := ih hrep hrest
      have hload : (durable tables').load = (memory g').load := hrep.load_eq
      simp only [accepts, exchanges, after, List.foldl_cons, hm, hd, hrm, hrd, hload, Bool.not_false,
        Bool.true_and, List.cons.injEq, true_and]
      exact ⟨haccepts, hall⟩
    · simp only [accepts, hrm, hrd, Bool.not_true, Bool.false_and, Bool.false_eq_true, false_implies,
        and_self]

end Mirroring

/-- New tables take up a graph as it is. -/
theorem save_new {seed : Graph} (hw : seed.WellFormed) (hr : seed.Rereads) :
    ∃ tables, (durable .new).answer (.save seed) = (.ok .done, .durable tables) ∧
      tables.Represents seed := by
  have hrebuild : Graph.empty.merge seed = ⟨seed, none⟩ := hw.rebuild
  rcases Tables.represents_new.save hw hr with ⟨tables, -, hd, hrep⟩ | ⟨id, hm, -⟩
  · rw [hrebuild] at hrep
    refine ⟨tables, ?_, hrep⟩
    simp only [answer, save, hd]
  · rw [hrebuild] at hm
    cases hm

/-- A store in memory with a graph and new tables into which the graph was saved accept the same
requests. Up to the first `save` that is refused they give the same answers and hold the same graph
after each request. That `save` is refused by both for the same relation id; the tables keep what they
had, and the memory keeps what was merged before the conflict. -/
theorem backends_agree {seed : Graph} (hw : seed.WellFormed) (hr : seed.Rereads) :
    ∃ tables, (durable .new).answer (.save seed) = (.ok .done, .durable tables) ∧
      ∀ requests, (∀ request ∈ requests, request.Sound) →
        (memory seed).accepts requests = (durable tables).accepts requests ∧
        ((memory seed).accepts requests = true →
          (memory seed).exchanges requests = (durable tables).exchanges requests ∧
          ∃ stored kept, (memory seed).after requests = .memory stored ∧
            (durable tables).after requests = .durable kept ∧
            ∀ g, g.WellFormed → g.Rereads →
              (memory stored).refuses (.save g) = (durable kept).refuses (.save g) ∧
              ((memory stored).refuses (.save g) = true → ∃ id,
                (memory stored).answer (.save g) =
                  (.error (.graph (.duplicateRelation id)), .memory (stored.merge g).graph) ∧
                (durable kept).answer (.save g) =
                  (.error (.graph (.duplicateRelation id)), .durable kept))) := by
  obtain ⟨tables, hsave, hrep⟩ := save_new hw hr
  refine ⟨tables, hsave, fun requests hs => ?_⟩
  obtain ⟨haccepts, hall⟩ := exchanges_mirrored hrep hs
  refine ⟨haccepts, fun hyes => ?_⟩
  obtain ⟨hexchanges, stored, kept, hm, hd, hkept⟩ := hall hyes
  refine ⟨hexchanges, stored, kept, hm, hd, fun g hg hgr => ?_⟩
  have hsound : (Request.save g).Sound := ⟨hg, hgr⟩
  rcases answer_mirrored hkept hsound with
    ⟨result, g', tables', -, -, -, hrm, hrd⟩ | ⟨other, id, hsame, hm, hd, hrm, hrd⟩
  · refine ⟨hrm.trans hrd.symm, fun hrefused => ?_⟩
    rw [hrm] at hrefused
    cases hrefused
  · cases hsame
    exact ⟨hrm.trans hrd.symm, fun _ => ⟨id, hm, hd⟩⟩

/-- Two places and the way from one to the other. -/
def crossing : Graph := Graph.ofStatements ["ferry", "island"] [⟨"ferry", "reaches", "island"⟩]

/-- Three places and a way between some of them that has a name. -/
def namedWay (triple : Triple) : Graph :=
  ((Graph.empty.addConcepts [.known "ferry", .known "island", .known "village"]).addRelations
    [{ id := "way", triple }]).graph

/-- A way that has a name is saved, its triple asked for, and the first place deleted. -/
def crossingRequests : List Request :=
  [.save (namedWay ⟨"island", "has", "village"⟩), .createRelation ⟨"island", "has", "village"⟩,
    .deleteConcept "ferry"]

/-- Both kinds of stores take up the named way, find it when its triple is asked for, and refuse another
way of that name. -/
theorem backends_agree_on_named_way :
    ∃ tables, (durable .new).answer (.save crossing) = (.ok .done, .durable tables) ∧
      (memory crossing).exchanges crossingRequests = (durable tables).exchanges crossingRequests ∧
      ∃ stored kept id, (memory crossing).after crossingRequests = .memory stored ∧
        (durable tables).after crossingRequests = .durable kept ∧
        (memory stored).answer (.save (namedWay ⟨"ferry", "has", "village"⟩)) =
          (.error (.graph (.duplicateRelation id)),
            .memory (stored.merge (namedWay ⟨"ferry", "has", "village"⟩)).graph) ∧
        (durable kept).answer (.save (namedWay ⟨"ferry", "has", "village"⟩)) =
          (.error (.graph (.duplicateRelation id)), .durable kept) := by
  have hway : ∀ triple, (namedWay triple).WellFormed := fun triple =>
    (Graph.wellFormed_empty.addConcepts _).addRelations _
  have hsaved : (namedWay ⟨"island", "has", "village"⟩).Rereads :=
    Tables.rereads_of_lists (by decide) (by decide)
  have hother : (namedWay ⟨"ferry", "has", "village"⟩).Rereads :=
    Tables.rereads_of_lists (by decide) (by decide)
  have hsound : ∀ request ∈ crossingRequests, request.Sound := by
    rintro request (_ | ⟨_, _ | ⟨_, _ | ⟨_, hnone⟩⟩⟩)
    · exact ⟨hway _, hsaved⟩
    · trivial
    · trivial
    · cases hnone
  have hseed : crossing.WellFormed := Graph.wellFormed_ofStatements _ _
  have hrows : crossing.Rereads := Tables.rereads_of_lists (by decide) (by decide)
  obtain ⟨tables, hsave, hall⟩ := backends_agree hseed hrows
  obtain ⟨-, hyes⟩ := hall crossingRequests hsound
  obtain ⟨hexchanges, stored, kept, hm, hd, hnext⟩ := hyes (by decide)
  obtain ⟨-, hrefused⟩ := hnext _ (hway ⟨"ferry", "has", "village"⟩) hother
  have hclash : ((memory crossing).after crossingRequests).refuses
      (.save (namedWay ⟨"ferry", "has", "village"⟩)) = true := by decide
  rw [hm] at hclash
  obtain ⟨id, hmemory, hdurable⟩ := hrefused hclash
  exact ⟨tables, hsave, hexchanges, stored, kept, id, hm, hd, hmemory, hdurable⟩

end KnowledgeGraph.Store
