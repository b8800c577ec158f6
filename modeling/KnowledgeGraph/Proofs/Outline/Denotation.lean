import KnowledgeGraph.Outline.Reading
import KnowledgeGraph.Proofs.Graph.Notation
import KnowledgeGraph.Proofs.Outline.Key

/-!
# What an outline says

An outline mentions references, has relation keys and states triples. Reading goes through these one
after the other, and each triple is stated after both of its ends are mentioned. The graph that is read
has just the concepts that are mentioned and just the triples that are stated; reading succeeds if the
references and keys can be read and no two triples share an id.
-/

namespace KnowledgeGraph.Outline

/-- One thing that an outline says. -/
inductive Step where
  /-- It mentions a reference. -/
  | mention (reference : String)
  /-- It has a relation key. -/
  | key (text : String)
  /-- It states what a key says of the concept above and of one below. -/
  | state (text above below : String)

mutual

/-- The references of the top concepts of a term. -/
def termTops : Term → List String
  | .reference text => [text]
  | .several terms => termsTops terms
  | .nested concepts => concepts.map (·.1)

/-- The references of the top concepts of terms together. -/
def termsTops : List Term → List String
  | [] => []
  | term :: terms => termTops term ++ termsTops terms

end

mutual

/-- What a term says. -/
def termSteps : Term → List Step
  | .reference text => [.mention text]
  | .several terms => termsSteps terms
  | .nested concepts => conceptsSteps concepts

/-- What terms say. -/
def termsSteps : List Term → List Step
  | [] => []
  | term :: terms => termSteps term ++ termsSteps terms

/-- What concepts with all that stands under them say. -/
def conceptsSteps : List (String × Branches) → List Step
  | [] => []
  | (reference, branches) :: rest =>
    .mention reference :: (branchesSteps reference branches ++ conceptsSteps rest)

/-- What stands under the relation keys of a concept says. -/
def branchesSteps (above : String) : Branches → List Step
  | [] => []
  | (text, term) :: rest =>
    .key text :: (termSteps term ++ ((termTops term).map (.state text above) ++
      branchesSteps above rest))

end

/-- What reading does for one step. -/
def perform (g : Graph) : Step → Except Fault Graph
  | .mention reference => (register g reference).map (·.2)
  | .key text => (parseKey text).map fun _ => g
  | .state text above below => do
    let key ← parseKey text
    (g.addTripleIfAbsent (key.triple above below)).map (·.2)

/-- What reading does for steps one after the other. -/
def play (g : Graph) (steps : List Step) : Except Fault Graph := steps.foldlM perform g

variable {g g' : Graph} {steps : List Step}

/-- A key is read as the one that the text writes. -/
theorem parseKey_eq_ok {text : String} {key : RelationKey} :
    parseKey text = .ok key ↔ RelationKey.parse text = .ok key := by
  unfold parseKey
  cases RelationKey.parse text <;> simp

/-- Steps are read from the first on. -/
theorem play_cons (step : Step) : play g (step :: steps) = perform g step >>= fun g => play g steps :=
  List.foldlM_cons

/-- Steps are read part by part. -/
theorem play_append (first second : List Step) :
    play g (first ++ second) = play g first >>= fun g => play g second :=
  List.foldlM_append

/-- A reference that is read is the id of its concept. -/
theorem register_eq (reference : String) :
    register g reference = (perform g (.mention reference)).map fun g => (reference, g) := by
  rw [perform]
  unfold register
  cases hp : Concept.parseReference reference with
  | error fault => rfl
  | ok concept =>
    have hid : concept.id = reference := by
      rw [(Concept.parseReference_eq_ok.mp hp).2, Concept.ofReference_id]
    simp only [bind, Except.bind, Except.map, hid]

/-- The triples of a key are stated one after the other. -/
theorem addBranch_eq {text : String} {key : RelationKey} (hk : parseKey text = .ok key)
    (above : String) (belows : List String) :
    addBranch key above g belows = play g (belows.map (.state text above)) := by
  induction belows generalizing g with
  | nil => rfl
  | cons below rest ih =>
    rw [addBranch, List.map_cons, play_cons, perform, hk]
    cases ha : g.addTripleIfAbsent (key.triple above below) with
    | error fault => simp [bind, Except.bind, Except.map, ha]
    | ok pair =>
      simp only [bind, Except.bind, Except.map, ha]
      exact ih

mutual

/-- Reading a term plays its steps and returns its top concepts. -/
theorem addTerm_eq (g : Graph) :
    ∀ term, addTerm g term = (play g (termSteps term)).map fun g => (termTops term, g)
  | .reference text => by
    rw [addTerm, register_eq, termSteps, termTops, play_cons]
    cases perform g (.mention text) <;> rfl
  | .several terms => by
    rw [addTerm, termSteps, termTops]
    exact addTerms_eq g terms
  | .nested concepts => by
    rw [addTerm, termSteps, termTops]
    exact addConcepts_eq g concepts

/-- Reading terms plays their steps and returns their top concepts. -/
theorem addTerms_eq (g : Graph) :
    ∀ terms, addTerms g terms = (play g (termsSteps terms)).map fun g => (termsTops terms, g)
  | [] => by
    rw [addTerms, termsSteps, termsTops]
    rfl
  | term :: terms => by
    rw [addTerms, termsSteps, termsTops, play_append, addTerm_eq g term]
    cases play g (termSteps term) with
    | error fault => rfl
    | ok next =>
      simp only [bind, Except.bind, Except.map, addTerms_eq next terms]
      cases play next (termsSteps terms) <;> rfl

/-- Reading concepts plays their steps and returns their references. -/
theorem addConcepts_eq (g : Graph) :
    ∀ concepts, addConcepts g concepts =
      (play g (conceptsSteps concepts)).map fun g => (concepts.map (·.1), g)
  | [] => by
    rw [addConcepts, conceptsSteps]
    rfl
  | (reference, branches) :: rest => by
    rw [addConcepts, conceptsSteps, play_cons, register_eq]
    cases perform g (.mention reference) with
    | error fault => rfl
    | ok next =>
      simp only [bind, Except.bind, Except.map, play_append, addBranches_eq next reference branches]
      cases play next (branchesSteps reference branches) with
      | error fault => rfl
      | ok further =>
        simp only [addConcepts_eq further rest, Except.map]
        cases play further (conceptsSteps rest) <;> rfl

/-- Reading what stands under the relation keys of a concept plays its steps. -/
theorem addBranches_eq (g : Graph) (above : String) :
    ∀ branches, addBranches g above branches = play g (branchesSteps above branches)
  | [] => by
    rw [addBranches, branchesSteps]
    rfl
  | (text, term) :: rest => by
    rw [addBranches, branchesSteps, play_cons, perform]
    cases hk : parseKey text with
    | error fault => rfl
    | ok key =>
      simp only [bind, Except.bind, Except.map, play_append, addTerm_eq g term]
      cases play g (termSteps term) with
      | error fault => rfl
      | ok next =>
        simp only [addBranch_eq hk]
        cases play next ((termTops term).map (.state text above)) with
        | error fault => rfl
        | ok further => exact addBranches_eq further above rest

end

/-- The graph of an outline is what its steps lead to from the empty graph. -/
theorem toGraph_eq (outline : Outline) :
    toGraph outline = play .empty (conceptsSteps outline) := by
  unfold toGraph
  rw [addConcepts_eq]
  cases play .empty (conceptsSteps outline) <;> rfl

/-- The ends of each triple are among the given references or are mentioned before it is stated. -/
def Ordered : (String → Prop) → List Step → Prop
  | _, [] => True
  | seen, .mention reference :: rest => Ordered (fun id => id = reference ∨ seen id) rest
  | seen, .key _ :: rest => Ordered seen rest
  | seen, .state _ above below :: rest => seen above ∧ seen below ∧ Ordered seen rest

/-- More references may be given. -/
theorem Ordered.mono {seen seen' : String → Prop} (hs : ∀ id, seen id → seen' id)
    (h : Ordered seen steps) : Ordered seen' steps := by
  induction steps generalizing seen seen' with
  | nil => trivial
  | cons step rest ih =>
    cases step with
    | mention reference =>
      exact ih (fun id hid => hid.imp_right (hs id)) h
    | key text => exact ih hs h
    | state text above below => exact ⟨hs above h.1, hs below h.2.1, ih hs h.2.2⟩

/-- What the first part mentions may be used in the second. -/
theorem Ordered.append {seen : String → Prop} {first second : List Step} (hf : Ordered seen first)
    (hs : Ordered (fun id => .mention id ∈ first ∨ seen id) second) :
    Ordered seen (first ++ second) := by
  induction first generalizing seen with
  | nil =>
    refine hs.mono fun id hid => hid.resolve_left ?_
    exact List.not_mem_nil
  | cons step rest ih =>
    have hrest : ∀ id, Step.mention id ∈ step :: rest ∨ seen id →
        Step.mention id ∈ rest ∨ Step.mention id = step ∨ seen id := by
      rintro id (hid | hid)
      · exact (List.mem_cons.mp hid).elim (fun same => .inr (.inl same)) .inl
      · exact .inr (.inr hid)
    cases step with
    | mention reference =>
      refine ih hf (hs.mono fun id hid => (hrest id hid).imp_right fun h => h.imp_left ?_)
      exact fun same => Step.mention.inj same
    | key text =>
      exact ih hf (hs.mono fun id hid => (hrest id hid).imp_right fun h => h.resolve_left nofun)
    | state text above below =>
      refine ⟨hf.1, hf.2.1, ih hf.2.2 ?_⟩
      exact hs.mono fun id hid => (hrest id hid).imp_right fun h => h.resolve_left nofun

/-- Triples may be stated of references that are given. -/
theorem ordered_state {seen : String → Prop} {text above : String} {belows : List String}
    (ha : seen above) (hb : ∀ below ∈ belows, seen below) :
    Ordered seen (belows.map (.state text above)) := by
  induction belows with
  | nil => trivial
  | cons below rest ih =>
    exact ⟨ha, hb below List.mem_cons_self, ih fun other ho => hb other (List.mem_cons_of_mem _ ho)⟩

/-- Concepts are mentioned. -/
theorem mention_mem_conceptsSteps {concepts : List (String × Branches)} {reference : String}
    (h : reference ∈ concepts.map (·.1)) : .mention reference ∈ conceptsSteps concepts := by
  induction concepts with
  | nil => cases h
  | cons concept rest ih =>
    obtain ⟨head, branches⟩ := concept
    rw [conceptsSteps]
    rcases List.mem_cons.mp h with rfl | h
    · exact List.mem_cons_self
    · exact List.mem_cons_of_mem _ (List.mem_append_right _ (ih h))

mutual

/-- The top concepts of a term are mentioned. -/
theorem mention_mem_termSteps {reference : String} :
    ∀ {term : Term}, reference ∈ termTops term → .mention reference ∈ termSteps term
  | .reference text, h => by
    rw [termTops, List.mem_singleton] at h
    rw [termSteps, h]
    exact List.mem_singleton_self _
  | .several terms, h => by
    rw [termTops] at h
    rw [termSteps]
    exact mention_mem_termsSteps h
  | .nested concepts, h => by
    rw [termTops] at h
    rw [termSteps]
    exact mention_mem_conceptsSteps h

/-- The top concepts of terms are mentioned. -/
theorem mention_mem_termsSteps {reference : String} :
    ∀ {terms : List Term}, reference ∈ termsTops terms → .mention reference ∈ termsSteps terms
  | [], h => by
    rw [termsTops] at h
    cases h
  | term :: terms, h => by
    rw [termsTops] at h
    rw [termsSteps]
    rcases List.mem_append.mp h with h | h
    · exact List.mem_append_left _ (mention_mem_termSteps h)
    · exact List.mem_append_right _ (mention_mem_termsSteps h)

end

mutual

/-- The steps of a term are in order. -/
theorem ordered_term (seen : String → Prop) : ∀ term, Ordered seen (termSteps term)
  | .reference text => by
    rw [termSteps]
    trivial
  | .several terms => by
    rw [termSteps]
    exact ordered_terms seen terms
  | .nested concepts => by
    rw [termSteps]
    exact ordered_concepts seen concepts

/-- The steps of terms are in order. -/
theorem ordered_terms (seen : String → Prop) : ∀ terms, Ordered seen (termsSteps terms)
  | [] => by
    rw [termsSteps]
    trivial
  | term :: terms => by
    rw [termsSteps]
    exact (ordered_term seen term).append (ordered_terms _ terms)

/-- The steps of concepts are in order. -/
theorem ordered_concepts (seen : String → Prop) : ∀ concepts, Ordered seen (conceptsSteps concepts)
  | [] => by
    rw [conceptsSteps]
    trivial
  | (reference, branches) :: rest => by
    rw [conceptsSteps]
    exact (ordered_branches (.inl rfl) branches).append (ordered_concepts _ rest)

/-- The steps under a given concept are in order. -/
theorem ordered_branches {seen : String → Prop} {above : String} (ha : seen above) :
    ∀ branches, Ordered seen (branchesSteps above branches)
  | [] => by
    rw [branchesSteps]
    trivial
  | (text, term) :: rest => by
    rw [branchesSteps]
    refine (ordered_term seen term).append ((ordered_state (.inr ha) ?_).append ?_)
    · exact fun below hb => .inl (mention_mem_termSteps hb)
    · exact ordered_branches (.inr (.inr ha)) rest

end

/-- A step can be read when its reference or its key can. -/
def Step.Readable : Step → Prop
  | .mention reference => Concept.Readable reference
  | .key text => ∃ key, RelationKey.parse text = .ok key
  | .state text _ _ => ∃ key, RelationKey.parse text = .ok key

/-- The text of the relation key that a step has. -/
def Step.text? : Step → Option String
  | .mention _ => none
  | .key text | .state text _ _ => some text

/-- The key of a step that can be read can be read. -/
theorem Step.readable_text {step : Step} {text : String} (ht : step.text? = some text)
    (hr : step.Readable) : ∃ key, RelationKey.parse text = .ok key := by
  cases step with
  | mention reference => cases ht
  | key text' =>
    cases ht
    exact hr
  | state text' above below =>
    cases ht
    exact hr

/-- A step states the triple of its key, above and below. -/
def Step.States (step : Step) (triple : Triple) : Prop :=
  ∃ text above below key, step = .state text above below ∧ RelationKey.parse text = .ok key ∧
    triple = key.triple above below

/-- A mention states nothing. -/
@[simp] theorem not_states_mention {reference : String} {triple : Triple} :
    ¬(Step.mention reference).States triple := by
  rintro ⟨_, _, _, _, hsame, -⟩
  cases hsame

/-- A key alone states nothing. -/
@[simp] theorem not_states_key {text : String} {triple : Triple} :
    ¬(Step.key text).States triple := by
  rintro ⟨_, _, _, _, hsame, -⟩
  cases hsame

/-- A statement states the triple of the key that its text writes. -/
theorem states_state {text above below : String} {key : RelationKey} {triple : Triple}
    (hk : RelationKey.parse text = .ok key) :
    (Step.state text above below).States triple ↔ triple = key.triple above below := by
  constructor
  · rintro ⟨_, _, _, other, hsame, ho, htriple⟩
    cases hsame
    rw [hk] at ho
    cases ho
    exact htriple
  · exact fun htriple => ⟨text, above, below, key, rfl, hk, htriple⟩

/-- A graph tells references and triples when it has just the concepts that the references stand for and
just the relations of the triples. -/
structure Tells (g : Graph) (references : String → Prop) (triples : Triple → Prop) : Prop where
  /-- References and triples say everything of the graph. -/
  shaped : g.NotationShaped
  /-- It has the concepts of the references. -/
  concepts_iff : ∀ id, g.hasConcept id = true ↔ references id
  /-- It has the relations of the triples. -/
  relations_iff : ∀ triple, g.relations.get? triple.id = some (.ofTriple triple) ↔ triples triple

namespace Tells

variable {references references' : String → Prop} {triples triples' : Triple → Prop}

/-- The empty graph tells nothing. -/
theorem empty : Tells .empty (fun _ => False) fun _ => False :=
  ⟨.empty, fun _ => ⟨nofun, nofun⟩, fun _ => ⟨nofun, nofun⟩⟩

/-- What a graph tells may be said in other words. -/
theorem congr (h : Tells g references triples) (hr : ∀ id, references id ↔ references' id)
    (ht : ∀ triple, triples triple ↔ triples' triple) : Tells g references' triples' :=
  ⟨h.shaped, fun id => (h.concepts_iff id).trans (hr id),
    fun triple => (h.relations_iff triple).trans (ht triple)⟩

/-- A graph is determined by what it tells. -/
theorem unique (h : Tells g references triples) (h' : Tells g' references triples) : g = g' := by
  have hsub : ∀ {g g' : Graph}, Tells g references triples → Tells g' references triples →
      ∀ id relation, g.relations.get? id = some relation → g'.relations.get? id = some relation := by
    intro g g' h h' id relation hg
    have he := h.shaped.relation_eq hg
    have hid : relation.triple.id = id :=
      (h.shaped.relation_name id relation hg).symm.trans (h.shaped.relation_id id relation hg)
    rw [← hid, he] at hg ⊢
    exact (h'.relations_iff _).mpr ((h.relations_iff _).mp hg)
  have hconcepts : ∀ {g g' : Graph}, Tells g references triples → Tells g' references triples →
      ∀ id concept, g.concepts.get? id = some concept → g'.concepts.get? id = some concept := by
    intro g g' h h' id concept hg
    rw [h.shaped.concept_eq hg]
    refine h'.shaped.get?_concept ((h'.concepts_iff id).mpr ((h.concepts_iff id).mp ?_))
    exact Dict.contains_of_get? hg
  refine h.shaped.toWellFormed.eq_of_parts h'.shaped.toWellFormed ?_ ?_
  · ext id concept
    exact ⟨hconcepts h h' id concept, hconcepts h' h id concept⟩
  · ext id relation
    exact ⟨hsub h h' id relation, hsub h' h id relation⟩

/-- Different triples that a graph tells have different ids. -/
theorem eq_of_id (h : Tells g references triples) {triple triple' : Triple} (ht : triples triple)
    (ht' : triples triple') (hid : triple.id = triple'.id) : triple = triple' := by
  have hg := (h.relations_iff triple).mpr ht
  rw [hid, (h.relations_iff triple').mpr ht'] at hg
  exact (congrArg Relation.triple (Option.some.inj hg)).symm

/-- Mentioning a reference adds it. -/
theorem mention (h : Tells g references triples) (reference : String) :
    Tells (g.addConceptIfAbsent reference (.ofReference reference)).2
      (fun id => id = reference ∨ references id) triples where
  shaped := h.shaped.addConceptIfAbsent reference
  concepts_iff := by
    intro id
    unfold Graph.addConceptIfAbsent
    split
    next there =>
      rw [h.concepts_iff]
      refine ⟨.inr, fun hid => hid.elim (fun same => ?_) fun hid => hid⟩
      rw [same]
      exact (h.concepts_iff reference).mp there
    next =>
      rw [← h.concepts_iff]
      exact Dict.contains_insert.trans (or_congr_left eq_comm)
  relations_iff := by
    intro triple
    unfold Graph.addConceptIfAbsent
    split
    · exact h.relations_iff triple
    · exact h.relations_iff triple

/-- A triple that is told is found. -/
theorem hasTriple_iff (h : Tells g references triples) {triple : Triple} :
    g.hasTriple triple = true ↔ triples triple := by
  rw [h.shaped.toWellFormed.hasTriple_iff, h.shaped.says_iff, h.relations_iff]

/-- Stating a triple adds it. -/
theorem state (h : Tells g references triples) {triple : Triple} {created : Bool}
    (ha : g.addTripleIfAbsent triple = .ok (created, g')) :
    Tells g' references fun other => other = triple ∨ triples other := by
  have hshaped := h.shaped.addTripleIfAbsent ha
  rcases Graph.addTripleIfAbsent_eq_ok ha with ⟨there, rfl⟩ | ⟨absent, hadd⟩
  · have hthere := h.hasTriple_iff.mp there
    refine h.congr (fun _ => Iff.rfl) fun other => ⟨.inr, fun ho => ho.elim (fun same => ?_) id⟩
    rw [same]
    exact hthere
  · have hput : g.relations.get? (Relation.ofTriple triple).id = none ∧
        g' = g.putRelation (.ofTriple triple) := by
      rcases Graph.addRelation_eq_ok hadd with hnew | ⟨existing, he, hsame, -⟩
      · exact hnew
      · refine absurd (h.shaped.toWellFormed.hasTriple_iff.mpr ?_) (Bool.eq_false_iff.mp absent)
        exact ⟨existing, Dict.mem_values.mpr ⟨_, he⟩, hsame⟩
    obtain ⟨hfree, rfl⟩ := hput
    refine ⟨hshaped, ?_, ?_⟩
    · exact h.concepts_iff
    · intro other
      rw [Graph.get?_putRelation, ← h.relations_iff]
      split
      next same =>
        rw [← same, hfree]
        simp only [Option.some.injEq, reduceCtorEq, or_false]
        exact ⟨fun he => (congrArg Relation.triple he).symm, fun he => by rw [he]⟩
      next other_id =>
        refine ⟨.inr, fun ho => ho.elim (fun same => ?_) id⟩
        exact absurd (congrArg Triple.id same.symm) other_id

/-- A step that is read can be read, and adds what it says. -/
theorem perform {step : Step} (h : Tells g references triples)
    (hp : Outline.perform g step = .ok g') :
    step.Readable ∧ Tells g' (fun id => step = .mention id ∨ references id)
      fun triple => step.States triple ∨ triples triple := by
  cases step with
  | mention reference =>
    unfold Outline.perform register at hp
    cases hr : Concept.parseReference reference with
    | error fault =>
      simp only [hr] at hp
      cases hp
    | ok concept =>
      simp only [hr] at hp
      obtain ⟨hreadable, rfl⟩ := Concept.parseReference_eq_ok.mp hr
      cases hp
      refine ⟨hreadable, ?_⟩
      have hmention := h.mention reference
      rw [← Concept.ofReference_id reference] at hmention
      simp only [Concept.ofReference_id] at hmention ⊢
      refine hmention.congr (fun id => or_congr_left ?_) fun triple => ?_
      · exact ⟨fun same => by rw [same], fun same => (Step.mention.inj same).symm⟩
      · exact (or_iff_right not_states_mention).symm
  | key text =>
    unfold Outline.perform parseKey at hp
    cases hk : RelationKey.parse text with
    | error cause =>
      simp only [hk] at hp
      cases hp
    | ok key =>
      simp only [hk] at hp
      cases hp
      refine ⟨⟨key, hk⟩, h.congr (fun id => ?_) fun triple => ?_⟩
      · exact (or_iff_right nofun).symm
      · exact (or_iff_right not_states_key).symm
  | state text above below =>
    unfold Outline.perform parseKey at hp
    cases hk : RelationKey.parse text with
    | error cause =>
      simp only [hk] at hp
      cases hp
    | ok key =>
      simp only [hk, bind, Except.bind] at hp
      cases ha : g.addTripleIfAbsent (key.triple above below) with
      | error fault =>
        rw [ha] at hp
        cases hp
      | ok pair =>
        rw [ha] at hp
        cases hp
        refine ⟨⟨key, hk⟩, (h.state ha).congr (fun id => ?_) fun triple => or_congr_left ?_⟩
        · exact (or_iff_right nofun).symm
        · exact (states_state hk).symm

/-- Steps that are read can be read, and add what they say. -/
theorem play (h : Tells g references triples) (hp : Outline.play g steps = .ok g') :
    (∀ step ∈ steps, step.Readable) ∧ Tells g' (fun id => .mention id ∈ steps ∨ references id)
      fun triple => (∃ step ∈ steps, step.States triple) ∨ triples triple := by
  induction steps generalizing g references triples with
  | nil =>
    cases hp
    refine ⟨nofun, h.congr (fun id => ?_) fun triple => ?_⟩
    · exact ⟨.inr, fun hid => hid.resolve_left List.not_mem_nil⟩
    · exact ⟨.inr, fun ht => ht.resolve_left fun ⟨_, hm, _⟩ => List.not_mem_nil hm⟩
  | cons step rest ih =>
    rw [play_cons] at hp
    cases hstep : Outline.perform g step with
    | error fault =>
      rw [hstep] at hp
      cases hp
    | ok next =>
      rw [hstep] at hp
      obtain ⟨hreadable, hnext⟩ := h.perform hstep
      obtain ⟨hall, hrest⟩ := ih hnext hp
      refine ⟨fun other ho => ?_, hrest.congr (fun id => ?_) fun triple => ?_⟩
      · rcases List.mem_cons.mp ho with rfl | ho
        · exact hreadable
        · exact hall other ho
      · rw [List.mem_cons, ← or_assoc]
        refine or_congr_left ?_
        rw [or_comm]
        exact or_congr_left eq_comm
      · rw [List.exists_mem_cons_iff, ← or_assoc]
        exact or_congr_left or_comm

/-- A step whose ends are told fails on its reference or on its key, or because its triple shares the id
of another one that is told. -/
theorem fault_of_perform {step : Step} {fault : Fault} (h : Tells g references triples)
    (he : ∀ triple, step.States triple → references triple.source ∧ references triple.target)
    (hp : Outline.perform g step = .error fault) :
    (∃ reference, step = .mention reference ∧ Concept.parseReference reference = .error fault) ∨
      (∃ text, step.text? = some text ∧ parseKey text = .error fault) ∨
      ∃ triple other, step.States triple ∧ triples other ∧ triple ≠ other ∧ triple.id = other.id ∧
        fault = .duplicateRelation triple.id := by
  cases step with
  | mention reference =>
    unfold Outline.perform register at hp
    cases hr : Concept.parseReference reference with
    | ok concept =>
      simp only [hr] at hp
      cases hp
    | error cause =>
      simp only [hr] at hp
      cases hp
      exact .inl ⟨reference, rfl, hr⟩
  | key text =>
    unfold Outline.perform at hp
    cases hk : parseKey text with
    | ok key =>
      simp only [hk] at hp
      cases hp
    | error cause =>
      simp only [hk] at hp
      cases hp
      exact .inr (.inl ⟨text, rfl, hk⟩)
  | state text above below =>
    unfold Outline.perform at hp
    cases hk : parseKey text with
    | error cause =>
      simp only [hk] at hp
      cases hp
      exact .inr (.inl ⟨text, rfl, hk⟩)
    | ok key =>
      have hparse : RelationKey.parse text = .ok key := parseKey_eq_ok.mp hk
      have hstates := (states_state hparse).mpr (rfl : key.triple above below = _)
      obtain ⟨hs, ht⟩ := he _ hstates
      have hs' := (h.concepts_iff _).mpr hs
      have ht' := (h.concepts_iff _).mpr ht
      simp only [hk, bind, Except.bind] at hp
      rw [Graph.addTripleIfAbsent_of_ends hs' ht'] at hp
      split at hp
      next => cases hp
      next absent =>
        have hadd := @Graph.addRelation_of_ends g (.ofTriple (key.triple above below)) hs' ht'
        cases hg : g.relations.get? (Relation.ofTriple (key.triple above below)).id with
        | none =>
          simp only [hg] at hadd
          rw [hadd] at hp
          cases hp
        | some existing =>
          -- What stands under the id says a triple that is told, and not the one that is stated.
          have hexisting := h.shaped.relation_eq hg
          have hname : existing.triple.id = (key.triple above below).id :=
            (h.shaped.relation_name _ _ hg).symm.trans (h.shaped.relation_id _ _ hg)
          have htold : triples existing.triple := by
            rw [← h.relations_iff, hname, ← hexisting]
            exact hg
          have hother : existing.triple ≠ (Relation.ofTriple (key.triple above below)).triple := by
            intro same
            rw [same] at htold
            exact absent (h.hasTriple_iff.mpr htold)
          simp only [hg] at hadd
          rw [hadd, if_neg hother] at hp
          cases hp
          exact .inr (.inr ⟨_, _, hstates, htold, Ne.symm hother, hname.symm, rfl⟩)

/-- Steps that are in order fail on a reference or on a key, or because different triples that they state
or that are told share an id. -/
theorem fault_of_play {fault : Fault} (h : Tells g references triples) (ho : Ordered references steps)
    (hp : Outline.play g steps = .error fault) :
    (∃ reference, .mention reference ∈ steps ∧ Concept.parseReference reference = .error fault) ∨
      (∃ step ∈ steps, ∃ text, step.text? = some text ∧ parseKey text = .error fault) ∨
      ∃ triple other, (∃ step ∈ steps, step.States triple) ∧
        ((∃ step ∈ steps, step.States other) ∨ triples other) ∧ triple ≠ other ∧
        triple.id = other.id ∧ fault = .duplicateRelation triple.id := by
  induction steps generalizing g references triples with
  | nil => cases hp
  | cons step rest ih =>
    have hends : ∀ triple, step.States triple →
        references triple.source ∧ references triple.target := by
      rintro triple ⟨text, above, below, key, rfl, -, rfl⟩
      unfold RelationKey.triple
      cases key.arrow with
      | forward => exact ⟨ho.1, ho.2.1⟩
      | backward => exact ⟨ho.2.1, ho.1⟩
    rw [play_cons] at hp
    cases hstep : Outline.perform g step with
    | error cause =>
      rw [hstep] at hp
      cases hp
      rcases h.fault_of_perform hends hstep with ⟨reference, rfl, hr⟩ | ⟨text, ht, hk⟩ |
        ⟨triple, other, hs, hother, hne⟩
      · exact .inl ⟨reference, List.mem_cons_self, hr⟩
      · exact .inr (.inl ⟨step, List.mem_cons_self, text, ht, hk⟩)
      · exact .inr (.inr ⟨triple, other, ⟨step, List.mem_cons_self, hs⟩, .inr hother, hne⟩)
    | ok next =>
      have hrest : Ordered (fun id => step = .mention id ∨ references id) rest := by
        cases step with
        | mention reference =>
          exact ho.mono fun id hid => hid.imp_left fun same => by rw [same]
        | key text => exact Ordered.mono (fun id hid => .inr hid) ho
        | state text above below => exact Ordered.mono (fun id hid => .inr hid) ho.2.2
      rw [hstep] at hp
      have hlater : ∀ triple, (∃ other ∈ rest, other.States triple) →
          ∃ other ∈ step :: rest, other.States triple :=
        fun triple ⟨other, hm, hs⟩ => ⟨other, List.mem_cons_of_mem _ hm, hs⟩
      rcases ih (h.perform hstep).2 hrest hp with ⟨reference, hm, hr⟩ | ⟨later, hm, hk⟩ |
        ⟨triple, other, hs, hother, hne⟩
      · exact .inl ⟨reference, List.mem_cons_of_mem _ hm, hr⟩
      · exact .inr (.inl ⟨later, List.mem_cons_of_mem _ hm, hk⟩)
      · refine .inr (.inr ⟨triple, other, hlater triple hs, ?_, hne⟩)
        rcases hother with hother | hother | hother
        · exact .inl (hlater other hother)
        · exact .inl ⟨step, List.mem_cons_self, hother⟩
        · exact .inr hother

/-- Steps that can be read and are in order are read, unless different triples that they state or that
are told share an id. -/
theorem play_eq_ok (h : Tells g references triples) (hr : ∀ step ∈ steps, step.Readable)
    (ho : Ordered references steps)
    (hid : ∀ triple other, (∃ step ∈ steps, step.States triple) ∨ triples triple →
      (∃ step ∈ steps, step.States other) ∨ triples other → triple.id = other.id → triple = other) :
    ∃ g', Outline.play g steps = .ok g' := by
  cases hp : Outline.play g steps with
  | ok g' => exact ⟨g', rfl⟩
  | error fault =>
    rcases h.fault_of_play ho hp with ⟨reference, hm, hparse⟩ | ⟨step, hm, text, ht, hk⟩ |
      ⟨triple, other, hs, hother, hne, hsame, -⟩
    · rw [Concept.parseReference_eq_ok.mpr ⟨hr _ hm, rfl⟩] at hparse
      cases hparse
    · obtain ⟨key, hparse⟩ := Step.readable_text ht (hr step hm)
      rw [parseKey_eq_ok.mpr hparse] at hk
      cases hk
    · exact absurd (hid triple other (.inl hs) hother hsame) hne

end Tells

/-- An outline is read when its references and keys can be read and some graph tells just the references
that it mentions and the triples that it states. This graph is what is read. -/
theorem toGraph_eq_ok_iff {outline : Outline} :
    toGraph outline = .ok g ↔ (∀ step ∈ conceptsSteps outline, step.Readable) ∧
      Tells g (fun id => .mention id ∈ conceptsSteps outline)
        fun triple => ∃ step ∈ conceptsSteps outline, step.States triple := by
  have hall : ∀ {g : Graph}, play .empty (conceptsSteps outline) = .ok g →
      (∀ step ∈ conceptsSteps outline, step.Readable) ∧
        Tells g (fun id => .mention id ∈ conceptsSteps outline)
          fun triple => ∃ step ∈ conceptsSteps outline, step.States triple := by
    intro g hplay
    obtain ⟨hreadable, htells⟩ := Tells.empty.play hplay
    exact ⟨hreadable, htells.congr (fun _ => or_iff_left id) fun _ => or_iff_left id⟩
  rw [toGraph_eq]
  refine ⟨hall, ?_⟩
  rintro ⟨hreadable, htells⟩
  obtain ⟨read, hread⟩ := Tells.empty.play_eq_ok hreadable (ordered_concepts _ outline)
    fun triple other ht hother => htells.eq_of_id (ht.resolve_right id) (hother.resolve_right id)
  rw [hread, (hall hread).2.unique htells]

end KnowledgeGraph.Outline
