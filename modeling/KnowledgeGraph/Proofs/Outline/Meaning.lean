import KnowledgeGraph.Proofs.Outline.Denotation
import Mathlib.Data.Set.Insert

/-!
# The meaning of an outline

What an outline mentions and states may be collected without reading it: a set of references, of
relation keys and of triples, by recursion on the outline alone and without regard to order, repetition
and nesting. Main statement: an outline is read just when its references and keys can be read and no two
of its triples share an id, and the graph that is read has one concept for each reference and one relation
for each triple and nothing else.
-/

namespace KnowledgeGraph.Outline

/-- What an outline mentions, the relation keys that it has and what it states. -/
structure Meaning where
  /-- The references. -/
  references : Set String := ∅
  /-- The relation keys, as they are written. -/
  keys : Set String := ∅
  /-- The triples. -/
  triples : Set Triple := ∅

namespace Meaning

instance : EmptyCollection Meaning := ⟨{}⟩

instance : Union Meaning where
  union first second :=
    { references := first.references ∪ second.references
      keys := first.keys ∪ second.keys
      triples := first.triples ∪ second.triples }

/-- A reference is mentioned. -/
def mention (reference : String) : Meaning := { references := {reference} }

/-- A text spells a key when it is what is written for the key, the type is not empty, and the type of a
key without the suffix does not end with it. -/
def Spells (text : String) (key : RelationKey) : Prop :=
  key.text = text ∧ key.type ≠ "" ∧
    (key.toAll = false → ∀ front, key.type ≠ front ++ RelationKey.suffix)

/-- A key states a triple of the concept above and of each one below. A text that spells no key states
nothing. -/
def branch (text above : String) (belows : List String) : Meaning where
  keys := {text}
  triples := {triple | ∃ key, Spells text key ∧ ∃ below ∈ belows, triple = key.triple above below}

end Meaning

mutual

/-- What a term means. -/
def termMeaning : Term → Meaning
  | .reference text => .mention text
  | .several terms => termsMeaning terms
  | .nested concepts => meaning concepts

/-- What terms mean together. -/
def termsMeaning : List Term → Meaning
  | [] => ∅
  | term :: terms => termMeaning term ∪ termsMeaning terms

/-- What concepts with all that stands under them mean. -/
def meaning : List (String × Branches) → Meaning
  | [] => ∅
  | (reference, branches) :: rest =>
    .mention reference ∪ (branchesMeaning reference branches ∪ meaning rest)

/-- What the relation keys of a concept mean, with what stands under them. -/
def branchesMeaning (above : String) : Branches → Meaning
  | [] => ∅
  | (text, term) :: rest =>
    .branch text above (termTops term) ∪ (termMeaning term ∪ branchesMeaning above rest)

end

variable {g g' : Graph} {outline other : Outline} {steps steps' : List Step} {m m' : Meaning}

/-- Steps mean what they mention, the keys that they have and what they state. -/
structure Means (steps : List Step) (m : Meaning) : Prop where
  /-- The references are mentioned. -/
  references_iff : ∀ id, .mention id ∈ steps ↔ id ∈ m.references
  /-- The keys are those of the steps. -/
  keys_iff : ∀ text, (∃ step ∈ steps, step.text? = some text) ↔ text ∈ m.keys
  /-- The triples are stated. -/
  triples_iff : ∀ triple, (∃ step ∈ steps, step.States triple) ↔ triple ∈ m.triples

namespace Means

/-- No steps mean nothing. -/
theorem nil : Means [] ∅ where
  references_iff _ := ⟨nofun, nofun⟩
  keys_iff _ := ⟨nofun, nofun⟩
  triples_iff _ := ⟨nofun, nofun⟩

/-- Steps mean what their parts mean. -/
theorem append (h : Means steps m) (h' : Means steps' m') : Means (steps ++ steps') (m ∪ m') where
  references_iff id :=
    List.mem_append.trans (or_congr (h.references_iff id) (h'.references_iff id))
  keys_iff text := by
    simp only [List.mem_append, or_and_right, exists_or]
    exact or_congr (h.keys_iff text) (h'.keys_iff text)
  triples_iff triple := by
    simp only [List.mem_append, or_and_right, exists_or]
    exact or_congr (h.triples_iff triple) (h'.triples_iff triple)

/-- Mentioning a reference means it. -/
theorem mention (reference : String) : Means [.mention reference] (.mention reference) where
  references_iff id := by simp [Meaning.mention]
  keys_iff text := by simp [Meaning.mention, Step.text?]
  triples_iff triple := by simp [Meaning.mention]

/-- A key and what it states of each concept below mean the branch. -/
theorem branch (text above : String) (belows : List String) :
    Means (.key text :: belows.map (.state text above)) (.branch text above belows) where
  references_iff id := by simp [Meaning.branch]
  keys_iff other := by
    rw [List.exists_mem_cons_iff]
    constructor
    · rintro (hkey | ⟨step, hm, hstep⟩)
      · exact (Option.some.inj hkey).symm
      · obtain ⟨below, -, rfl⟩ := List.mem_map.mp hm
        exact (Option.some.inj hstep).symm
    · rintro rfl
      exact .inl rfl
  triples_iff triple := by
    rw [List.exists_mem_cons_iff, or_iff_right not_states_key]
    constructor
    · rintro ⟨step, hm, hstates⟩
      obtain ⟨below, hb, rfl⟩ := List.mem_map.mp hm
      obtain ⟨_, _, _, key, hsame, hk, ht⟩ := hstates
      cases hsame
      exact ⟨key, RelationKey.parse_eq_ok.mp hk, below, hb, ht⟩
    · rintro ⟨key, hk, below, hb, ht⟩
      exact ⟨_, List.mem_map_of_mem hb, (states_state (RelationKey.parse_eq_ok.mpr hk)).mpr ht⟩

/-- The order of steps does not change what they mean. -/
theorem perm (h : Means steps m) (hp : steps.Perm steps') : Means steps' m where
  references_iff id := by rw [← hp.mem_iff, h.references_iff]
  keys_iff text := by simp only [← hp.mem_iff, h.keys_iff]
  triples_iff triple := by simp only [← hp.mem_iff, h.triples_iff]

end Means

mutual

/-- The steps of a term mean what the term means. -/
theorem means_term : ∀ term, Means (termSteps term) (termMeaning term)
  | .reference text => by
    rw [termSteps, termMeaning]
    exact .mention text
  | .several terms => by
    rw [termSteps, termMeaning]
    exact means_terms terms
  | .nested concepts => by
    rw [termSteps, termMeaning]
    exact means_concepts concepts

/-- The steps of terms mean what the terms mean. -/
theorem means_terms : ∀ terms, Means (termsSteps terms) (termsMeaning terms)
  | [] => by
    rw [termsSteps, termsMeaning]
    exact .nil
  | term :: terms => by
    rw [termsSteps, termsMeaning]
    exact (means_term term).append (means_terms terms)

/-- The steps of concepts mean what the concepts mean. -/
theorem means_concepts : ∀ concepts, Means (conceptsSteps concepts) (meaning concepts)
  | [] => by
    rw [conceptsSteps, meaning]
    exact .nil
  | (reference, branches) :: rest => by
    rw [conceptsSteps, meaning]
    exact (Means.mention reference).append ((means_branches reference branches).append
      (means_concepts rest))

/-- The steps under a concept mean what its relation keys mean. -/
theorem means_branches (above : String) :
    ∀ branches, Means (branchesSteps above branches) (branchesMeaning above branches)
  | [] => by
    rw [branchesSteps, branchesMeaning]
    exact .nil
  | (text, term) :: rest => by
    rw [branchesSteps, branchesMeaning]
    have hmeans := (Means.branch text above (termTops term)).append
      ((means_term term).append (means_branches above rest))
    rw [List.cons_append] at hmeans
    -- What stands under a key is read before the key states anything.
    exact hmeans.perm ((List.perm_append_comm_assoc _ _ _).cons _)

end

/-- An outline is read when its references and keys can be read and some graph tells just the references
and the triples that it means. This graph is what is read. -/
theorem toGraph_eq_ok_iff_meaning : toGraph outline = .ok g ↔
    (∀ reference ∈ (meaning outline).references, Concept.Readable reference) ∧
      (∀ text ∈ (meaning outline).keys, ∃ key, RelationKey.parse text = .ok key) ∧
      Tells g (· ∈ (meaning outline).references) (· ∈ (meaning outline).triples) := by
  have hmeans := means_concepts outline
  have htells : Tells g (fun id => .mention id ∈ conceptsSteps outline)
        (fun triple => ∃ step ∈ conceptsSteps outline, step.States triple) ↔
      Tells g (· ∈ (meaning outline).references) (· ∈ (meaning outline).triples) :=
    ⟨fun h => h.congr hmeans.references_iff hmeans.triples_iff,
      fun h => h.congr (fun id => (hmeans.references_iff id).symm)
        fun triple => (hmeans.triples_iff triple).symm⟩
  rw [toGraph_eq_ok_iff, htells, ← and_assoc]
  refine and_congr_left fun _ => ?_
  constructor
  · intro hr
    refine ⟨fun reference hm => hr _ ((hmeans.references_iff reference).mpr hm), fun text hm => ?_⟩
    obtain ⟨step, hs, ht⟩ := (hmeans.keys_iff text).mpr hm
    exact Step.readable_text ht (hr step hs)
  · rintro ⟨hreferences, hkeys⟩ step hs
    cases step with
    | mention reference => exact hreferences reference ((hmeans.references_iff reference).mp hs)
    | key text => exact hkeys text ((hmeans.keys_iff text).mp ⟨_, hs, rfl⟩)
    | state text above below => exact hkeys text ((hmeans.keys_iff text).mp ⟨_, hs, rfl⟩)

/-- Outlines that mean the same are read as the same graph. -/
theorem toGraph_eq_ok_congr (h : meaning outline = meaning other) :
    toGraph outline = .ok g ↔ toGraph other = .ok g := by
  rw [toGraph_eq_ok_iff_meaning, toGraph_eq_ok_iff_meaning, h]

/-- Reading fails on a reference or on a key, or because two triples share an id. -/
theorem fault_of_toGraph {fault : Fault} (h : toGraph outline = .error fault) :
    (∃ reference ∈ (meaning outline).references, Concept.parseReference reference = .error fault) ∨
      (∃ text ∈ (meaning outline).keys, parseKey text = .error fault) ∨
      ∃ triple ∈ (meaning outline).triples, ∃ shared ∈ (meaning outline).triples,
        triple ≠ shared ∧ triple.id = shared.id ∧ fault = .duplicateRelation triple.id := by
  have hmeans := means_concepts outline
  rw [toGraph_eq] at h
  rcases Tells.empty.fault_of_play (ordered_concepts _ outline) h with ⟨reference, hm, hr⟩ |
    ⟨step, hm, text, ht, hk⟩ | ⟨triple, shared, ht, hs, hrest⟩
  · exact .inl ⟨reference, (hmeans.references_iff reference).mp hm, hr⟩
  · exact .inr (.inl ⟨text, (hmeans.keys_iff text).mp ⟨step, hm, ht⟩, hk⟩)
  · exact .inr (.inr ⟨triple, (hmeans.triples_iff triple).mp ht, shared,
      (hmeans.triples_iff shared).mp (hs.resolve_right id), hrest⟩)

/-- A reference is refused for what it is, and not for what a graph has. -/
theorem parseReference_ne_missingConcept (reference id : String) :
    Concept.parseReference reference ≠ .error (.missingConcept id) := by
  unfold Concept.parseReference
  cases Limits.checkConceptId reference with
  | error violation => exact nofun
  | ok =>
    simp only
    split <;> exact nofun

/-- So is a key. -/
theorem parseKey_ne_missingConcept (text id : String) :
    parseKey text ≠ .error (.missingConcept id) := by
  unfold parseKey
  cases RelationKey.parse text <;> exact nofun

/-- A graph that tells references and triples has a concept for each reference and a relation for each
triple, of which these say everything, and nothing else. -/
theorem Tells.entries {references : String → Prop} {triples : Triple → Prop}
    (h : Tells g references triples) :
    (∀ id concept, g.concepts.get? id = some concept ↔
      references id ∧ concept = { id, description := id, isUnknown := Concept.isMarked id }) ∧
    ∀ id relation, g.relations.get? id = some relation ↔
      ∃ triple, triples triple ∧ id = triple.id ∧ relation = { id := triple.id, triple } := by
  have hreference : ∀ id, Concept.ofReference id =
      { id, description := id, isUnknown := Concept.isMarked id } := by
    intro id
    symm
    exact Concept.eq_ofReference rfl rfl rfl rfl
  constructor
  · intro id concept
    rw [← h.concepts_iff, ← hreference]
    constructor
    · exact fun hg => ⟨Dict.contains_of_get? hg, h.shaped.concept_eq hg⟩
    · rintro ⟨hc, rfl⟩
      exact h.shaped.get?_concept hc
  · intro id relation
    constructor
    · intro hg
      have hid : relation.triple.id = id :=
        (h.shaped.relation_name id relation hg).symm.trans (h.shaped.relation_id id relation hg)
      have he := h.shaped.relation_eq hg
      rw [← hid, he] at hg
      exact ⟨relation.triple, (h.relations_iff _).mp hg, hid.symm, he⟩
    · rintro ⟨triple, ht, rfl, rfl⟩
      exact (h.relations_iff triple).mpr ht

/-- Reading an outline gives what the outline means. It succeeds just when every reference can be read,
every key can be read, and no two of the triples share an id; the graph then has a concept for each
reference, known or unknown by its mark and described by its id, and a relation for each triple under the
id of the triple, and nothing else. No concept is ever missing. -/
theorem toGraph_denotes (outline : Outline) :
    ((∃ g, toGraph outline = .ok g) ↔
      (∀ reference ∈ (meaning outline).references, Concept.Readable reference) ∧
      (∀ text ∈ (meaning outline).keys, ∃ key, RelationKey.parse text = .ok key) ∧
      ∀ triple ∈ (meaning outline).triples, ∀ shared ∈ (meaning outline).triples,
        triple.id = shared.id → triple = shared) ∧
    (∀ g, toGraph outline = .ok g → g.WellFormed ∧
      (∀ id concept, g.concepts.get? id = some concept ↔ id ∈ (meaning outline).references ∧
        concept = { id, description := id, isUnknown := Concept.isMarked id }) ∧
      ∀ id relation, g.relations.get? id = some relation ↔ ∃ triple ∈ (meaning outline).triples,
        id = triple.id ∧ relation = { id := triple.id, triple }) ∧
    ∀ id, toGraph outline ≠ .error (.missingConcept id) := by
  refine ⟨⟨?_, ?_⟩, ?_, ?_⟩
  · rintro ⟨g, hg⟩
    obtain ⟨hreferences, hkeys, htells⟩ := toGraph_eq_ok_iff_meaning.mp hg
    exact ⟨hreferences, hkeys, fun triple ht shared hs => htells.eq_of_id ht hs⟩
  · rintro ⟨hreferences, hkeys, htriples⟩
    cases hread : toGraph outline with
    | ok g => exact ⟨g, rfl⟩
    | error fault =>
      rcases fault_of_toGraph hread with ⟨reference, hm, hr⟩ | ⟨text, hm, hk⟩ |
        ⟨triple, ht, shared, hs, hne, hid, -⟩
      · rw [Concept.parseReference_eq_ok.mpr ⟨hreferences reference hm, rfl⟩] at hr
        cases hr
      · obtain ⟨key, hparse⟩ := hkeys text hm
        rw [parseKey_eq_ok.mpr hparse] at hk
        cases hk
      · exact absurd (htriples triple ht shared hs hid) hne
  · intro g hg
    obtain ⟨-, -, htells⟩ := toGraph_eq_ok_iff_meaning.mp hg
    exact ⟨htells.shaped.toWellFormed, htells.entries⟩
  · intro id hmissing
    rcases fault_of_toGraph hmissing with ⟨reference, -, hr⟩ | ⟨text, -, hk⟩ |
      ⟨triple, -, shared, -, -, -, hfault⟩
    · exact parseReference_ne_missingConcept reference id hr
    · exact parseKey_ne_missingConcept text id hk
    · cases hfault

end KnowledgeGraph.Outline
