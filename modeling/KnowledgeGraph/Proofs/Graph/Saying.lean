import KnowledgeGraph.Graph.Part
import KnowledgeGraph.Proofs.Graph.WellFormed

/-!
# What a graph says

A graph says the triples of its relations. Adding relations, one after the other and also those only
that are missing, adds just what they say.
-/

namespace KnowledgeGraph.Graph

variable {g g' g'' : Graph} {relation : Relation} {id : String} {triple : Triple}
  {triples more : List Triple}

/-- Some relation of the graph says the triple. -/
def Says (g : Graph) (triple : Triple) : Prop :=
  ∃ relation ∈ g.relationList, relation.triple = triple

instance : Decidable (g.Says triple) :=
  inferInstanceAs (Decidable (∃ relation ∈ g.relationList, relation.triple = triple))

/-- A triple is said by a relation under some id. -/
theorem says_iff : g.Says triple ↔
    ∃ id relation, g.relations.get? id = some relation ∧ relation.triple = triple := by
  constructor
  · rintro ⟨relation, hr, ht⟩
    obtain ⟨id, hg⟩ := Dict.mem_values.mp hr
    exact ⟨id, relation, hg, ht⟩
  · rintro ⟨id, relation, hg, ht⟩
    exact ⟨relation, Dict.mem_values.mpr ⟨id, hg⟩, ht⟩

/-- What a triple is about are concepts of the graph that says it. -/
theorem WellFormed.ends_of_says (h : g.WellFormed) (hs : g.Says triple) :
    g.hasConcept triple.source = true ∧ g.hasConcept triple.target = true := by
  obtain ⟨id, relation, hg, rfl⟩ := says_iff.mp hs
  exact ⟨h.source_mem id relation hg, h.target_mem id relation hg⟩

/-- Adding relations adds just what they say. -/
theorem says_addRelations {relations : List Relation}
    (h : (g.addRelations relations).toExcept = .ok g') :
    g'.Says triple ↔ g.Says triple ∨ ∃ relation ∈ relations, relation.triple = triple := by
  have hgraph := (toExcept_eq_ok.mp h).2
  constructor
  · intro hsaid
    obtain ⟨id, stored, hg, ht⟩ := says_iff.mp hsaid
    rw [← hgraph] at hg
    rcases get?_addRelations_cases hg with ⟨before, hb, ht'⟩ | ⟨relation, hr, -, ht'⟩
    · exact .inl (says_iff.mpr ⟨id, before, hb, ht'.trans ht⟩)
    · exact .inr ⟨relation, hr, ht'.trans ht⟩
  · rintro (hsaid | ⟨relation, hr, ht⟩)
    · obtain ⟨id, stored, hg, ht⟩ := says_iff.mp hsaid
      obtain ⟨kept, hk, ht'⟩ := @get?_addRelations_of_some _ id relations _ hg
      rw [hgraph] at hk
      exact says_iff.mpr ⟨id, kept, hk, ht'.trans ht⟩
    · obtain ⟨kept, hk, ht'⟩ := get?_addRelations_of_mem h hr
      exact says_iff.mpr ⟨relation.id, kept, hk, ht'.trans ht⟩

/-- A graph has the concepts of another one and says some triples more. -/
structure Adds (g : Graph) (triples : List Triple) (g' : Graph) : Prop where
  /-- The graph is well-formed. -/
  wellFormed : g'.WellFormed
  /-- It has the concepts of the other one. -/
  concepts_eq : g'.concepts = g.concepts
  /-- It says what the other one says, and the triples. -/
  says_iff : ∀ triple, g'.Says triple ↔ g.Says triple ∨ triple ∈ triples

/-- A graph says what it says already. -/
theorem Adds.of_said (h : g.WellFormed) (ht : ∀ triple ∈ triples, g.Says triple) :
    g.Adds triples g where
  wellFormed := h
  concepts_eq := rfl
  says_iff triple := ⟨.inl, fun hsaid => hsaid.elim (fun hold => hold) (ht triple)⟩

/-- What is added one after the other is added together. -/
theorem Adds.trans (h : g.Adds triples g') (h' : g'.Adds more g'') : g.Adds (triples ++ more) g'' where
  wellFormed := h'.wellFormed
  concepts_eq := h'.concepts_eq.trans h.concepts_eq
  says_iff triple := by rw [h'.says_iff, h.says_iff, List.mem_append, or_assoc]

/-- Adding relations adds what they say. -/
theorem WellFormed.adds_addRelations {relations : List Relation} (h : g.WellFormed)
    (ha : (g.addRelations relations).toExcept = .ok g') :
    g.Adds (relations.map (·.triple)) g' where
  wellFormed := (toExcept_eq_ok.mp ha).2 ▸ h.addRelations relations
  concepts_eq := by rw [← (toExcept_eq_ok.mp ha).2, addRelations_concepts]
  says_iff triple := by rw [says_addRelations ha, List.mem_map]

/-- Adding a relation adds what it says. -/
theorem WellFormed.adds_addRelation (h : g.WellFormed) (ha : g.addRelation relation = .ok g') :
    g.Adds [relation.triple] g' := by
  have hall : (g.addRelations [relation]).toExcept = .ok g' :=
    addRelations_cons_eq_ok.mpr ⟨g', ha, rfl⟩
  exact h.adds_addRelations hall

/-- Adding a triple unless it is said adds it. -/
theorem WellFormed.adds_addTripleIfAbsent {created : Bool} (h : g.WellFormed)
    (ha : g.addTripleIfAbsent triple = .ok (created, g')) : g.Adds [triple] g' := by
  rcases addTripleIfAbsent_eq_ok ha with ⟨hsaid, rfl⟩ | ⟨-, hadd⟩
  · exact .of_said h (List.forall_mem_singleton.mpr (h.hasTriple_iff.mp hsaid))
  · exact h.adds_addRelation hadd

/-- A graph keeps the relations of another one, and the others that it has are those of triples. -/
structure Gains (g : Graph) (triples : List Triple) (g' : Graph) : Prop where
  /-- The relations stay. -/
  kept : ∀ id relation, g.relations.get? id = some relation → g'.relations.get? id = some relation
  /-- The others say the triples and have their ids. -/
  gained : ∀ id relation, g'.relations.get? id = some relation →
    g.relations.get? id = some relation ∨ ∃ triple ∈ triples, relation = .ofTriple triple

/-- What is gained one after the other is gained together. -/
theorem Gains.trans (h : g.Gains triples g') (h' : g'.Gains more g'') :
    g.Gains (triples ++ more) g'' where
  kept id relation hr := h'.kept id relation (h.kept id relation hr)
  gained := by
    intro id relation hr
    rcases h'.gained id relation hr with hr | ⟨triple, ht, rfl⟩
    · rcases h.gained id relation hr with hr | ⟨triple, ht, rfl⟩
      · exact .inl hr
      · exact .inr ⟨triple, List.mem_append_left _ ht, rfl⟩
    · exact .inr ⟨triple, List.mem_append_right _ ht, rfl⟩

/-- Adding a triple unless it is said gains at most its relation. -/
theorem WellFormed.gains_addTripleIfAbsent {created : Bool} (h : g.WellFormed)
    (ha : g.addTripleIfAbsent triple = .ok (created, g')) : g.Gains [triple] g' := by
  rcases addTripleIfAbsent_eq_ok ha with ⟨-, rfl⟩ | ⟨hunsaid, hadd⟩
  · exact ⟨fun _ _ hr => hr, fun _ _ hr => .inl hr⟩
  · rcases addRelation_eq_ok hadd with ⟨hnone, rfl⟩ | ⟨existing, he, hsame, -⟩
    · refine ⟨fun id relation hr => ?_, fun id relation hr => ?_⟩
      · rw [get?_putRelation, if_neg, hr]
        rintro rfl
        rw [hnone] at hr
        cases hr
      · rw [get?_putRelation] at hr
        split at hr
        next =>
          cases hr
          exact .inr ⟨triple, List.mem_singleton_self triple, rfl⟩
        next => exact .inl hr
    · have hsaid : g.hasTriple triple = true :=
        h.hasTriple_iff.mpr ⟨existing, Dict.mem_values.mpr ⟨_, he⟩, hsame⟩
      rw [hunsaid] at hsaid
      cases hsaid

/-- The targets of a type are those of the triples that leave the concept. -/
theorem mem_targetsOf {root type target : String} :
    target ∈ g.targetsOf root type ↔ g.Says ⟨root, type, target⟩ := by
  simp only [targetsOf, relationsAt, List.mem_map, List.mem_filter, Relation.touches,
    decide_eq_true_eq]
  constructor
  · rintro ⟨relation, ⟨⟨hr, rfl⟩, rfl⟩, rfl⟩
    exact ⟨relation, hr, rfl⟩
  · rintro ⟨relation, hr, ht⟩
    exact ⟨relation, ⟨⟨hr, congrArg Triple.source ht⟩, congrArg Triple.type ht⟩,
      congrArg Triple.target ht⟩

end KnowledgeGraph.Graph
