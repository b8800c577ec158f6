import KnowledgeGraph.Proofs.Graph.Renaming
import KnowledgeGraph.Rule.Grounding

/-!
# Grounding as one substitution

Grounding replaces the placeholders of a conclusion and then its unknowns, one after the other. As long
as nothing that is put in has the id of a placeholder or of an unknown, the order does not matter: the
result is the conclusion with all of them replaced at once.
-/

namespace KnowledgeGraph.Rule

open KnowledgeGraph.Graph (Substituted image)

variable {rule : Rule} {matched start g g' g'' result : Graph} {concept : Concept}
  {id source placeholder : String} {pairs rest : List (String × String)}

/-- A graph comes from another one when what hypothesis concepts stand for is put in the places of
concepts, one after the other, as far as these occur. -/
inductive Replaces (matched : Graph) : Graph → List (String × String) → Graph → Prop where
  /-- There is nothing to be replaced. -/
  | done (g : Graph) : Replaces matched g [] g
  /-- The first concept to be replaced does not occur. -/
  | absent {g g' : Graph} {source placeholder : String} {rest : List (String × String)} :
    ¬g.hasConcept placeholder = true → Replaces matched g rest g' →
    Replaces matched g ((source, placeholder) :: rest) g'
  /-- The first concept is replaced. -/
  | present {g next g' : Graph} {source placeholder : String} {rest : List (String × String)}
    {concept : Concept} : resolved matched source = .ok concept →
    (g.substitute placeholder concept).toExcept = .ok next → Replaces matched next rest g' →
    Replaces matched g ((source, placeholder) :: rest) g'

/-- Replacing placeholders replaces one after the other. -/
theorem replaces_of_replacePlaceholders (h : replacePlaceholders matched g pairs = .ok g') :
    Replaces matched g pairs g' := by
  induction pairs generalizing g with
  | nil =>
    cases h
    exact .done _
  | cons pair rest ih =>
    obtain ⟨source, placeholder⟩ := pair
    rw [replacePlaceholders] at h
    obtain ⟨concept, hr, h⟩ := exists_of_bind_eq_ok h
    split at h
    next =>
      obtain ⟨next, hs, h⟩ := exists_of_bind_eq_ok h
      exact .present hr hs (ih h)
    next hn => exact .absent hn (ih h)

/-- Replacing unknowns replaces each by what it stands for itself. -/
theorem replaces_of_replaceUnknowns {ids : List String} (h : replaceUnknowns matched g ids = .ok g') :
    Replaces matched g (ids.map fun id => (id, id)) g' := by
  induction ids generalizing g with
  | nil =>
    cases h
    exact .done _
  | cons id rest ih =>
    rw [replaceUnknowns] at h
    obtain ⟨concept, hr, h⟩ := exists_of_bind_eq_ok h
    obtain ⟨next, hs, h⟩ := exists_of_bind_eq_ok h
    exact .present hr hs (ih h)

/-- Grounding makes the replacements of the rule and then those of the shared unknowns. -/
theorem replaces_of_ground (h : rule.ground matched = .ok result) :
    ∃ g, Replaces matched rule.conclusion rule.becomes g ∧
      Replaces matched g ((rule.hypothesis.unknownIds.filter g.hasConcept).map fun id => (id, id))
        result := by
  unfold ground at h
  obtain ⟨g, hp, hu⟩ := exists_of_bind_eq_ok h
  exact ⟨g, replaces_of_replacePlaceholders hp, replaces_of_replaceUnknowns hu⟩

/-- Replacing concepts keeps a graph well-formed. -/
theorem Replaces.wellFormed (h : Replaces matched g pairs g') (hg : g.WellFormed) : g'.WellFormed := by
  induction h with
  | done g => exact hg
  | absent _ _ ih => exact ih hg
  | present _ hs _ ih => exact ih (hg.substitute hs)

/-- What a rule with a well-formed conclusion leads to is well-formed. -/
theorem ground_wellFormed (hc : rule.conclusion.WellFormed) (h : rule.ground matched = .ok result) :
    result.WellFormed := by
  obtain ⟨g, hplaceholders, hunknowns⟩ := replaces_of_ground h
  exact hunknowns.wellFormed (hplaceholders.wellFormed hc)

/-- What a hypothesis concept stands for is a concept of the match. -/
theorem get?_of_resolved (hm : matched.WellFormed) (h : resolved matched source = .ok concept) :
    matched.concepts.get? concept.id = some concept := by
  unfold resolved at h
  split at h
  next => cases h
  next target _ =>
    have hg := Graph.requireConcept_eq_ok.mp h
    rwa [hm.concept_id target concept hg]

section Runs

variable {standIn? : String → Option Concept}

/-- What stands in for the concepts of a graph after further replacements: what did before, and for the
others what the source of the first pair that names them stands for. -/
def extended (matched start : Graph) (standIn? : String → Option Concept)
    (pairs : List (String × String)) (id : String) : Option Concept :=
  (standIn? id).or
    (if start.hasConcept id then
      (pairs.find? fun pair => pair.2 = id).bind fun pair => (resolved matched pair.1).toOption
    else none)

/-- Without further replacements nothing else stands in. -/
theorem extended_nil : extended matched start standIn? [] = standIn? := by
  funext id
  simp [extended]

/-- A pair adds nothing if its concept is replaced already or does not occur. -/
theorem extended_cons_of_absent (h : standIn? placeholder ≠ none ∨ ¬start.hasConcept placeholder = true) :
    extended matched start standIn? ((source, placeholder) :: rest) =
      extended matched start standIn? rest := by
  funext id
  unfold extended
  by_cases same : placeholder = id
  · subst same
    rcases h with hsome | habsent
    · obtain ⟨concept, hc⟩ := Option.ne_none_iff_exists'.mp hsome
      rw [hc, Option.some_or, Option.some_or]
    · rw [if_neg habsent, if_neg habsent]
  · rw [List.find?_cons_of_neg (by simpa using same)]

/-- A pair whose concept occurs and is not replaced yet adds what its source stands for. -/
theorem extended_cons_of_present (hn : standIn? placeholder = none)
    (hc : start.hasConcept placeholder = true) (hr : resolved matched source = .ok concept) :
    extended matched start standIn? ((source, placeholder) :: rest) =
      extended matched start (Function.update standIn? placeholder (some concept)) rest := by
  funext id
  unfold extended
  by_cases same : id = placeholder
  · subst same
    rw [Function.update_self, hn, if_pos hc, List.find?_cons_of_pos (by simp)]
    simp [hr, Except.toOption]
  · rw [Function.update_of_ne same, List.find?_cons_of_neg (by simpa using Ne.symm same)]

/-- What stands in already stands in after further replacements. -/
theorem extended_of_some (h : standIn? id = some concept) :
    extended matched start standIn? pairs id = some concept := by
  rw [extended, h, Option.some_or]

/-- What stands in for concepts of a list are concepts of a match with ids that are not in the list. -/
structure Apart (matched : Graph) (replaced : List String) (standIn? : String → Option Concept) :
    Prop where
  /-- Concepts of the list are replaced. -/
  mem : ∀ id concept, standIn? id = some concept → id ∈ replaced
  /-- None of them is put in. -/
  not_mem : ∀ id concept, standIn? id = some concept → concept.id ∉ replaced
  /-- What is put in is in the match. -/
  get?_eq : ∀ id concept, standIn? id = some concept →
    matched.concepts.get? concept.id = some concept

/-- What keeps apart does so when less stands in. -/
theorem Apart.mono {replaced : List String} {less? : String → Option Concept}
    (h : Apart matched replaced standIn?)
    (hless : ∀ id concept, less? id = some concept → standIn? id = some concept) :
    Apart matched replaced less? where
  mem id concept hs := h.mem id concept (hless id concept hs)
  not_mem id concept hs := h.not_mem id concept (hless id concept hs)
  get?_eq id concept hs := h.get?_eq id concept (hless id concept hs)

/-- Replacing concepts one after the other replaces them all at once, if none of them is put in. -/
theorem Replaces.substituted {replaced : List String} (hr : Replaces matched g pairs g')
    (h : Substituted standIn? start g) (hg : g.WellFormed)
    (hpairs : ∀ pair ∈ pairs, pair.2 ∈ replaced)
    (hapart : Apart matched replaced (extended matched start standIn? pairs)) :
    Substituted (extended matched start standIn? pairs) start g' ∧ g'.WellFormed ∧
      ∀ pair ∈ pairs, start.hasConcept pair.2 = true →
        extended matched start standIn? pairs pair.2 ≠ none := by
  induction hr generalizing standIn? with
  | done g =>
    rw [extended_nil]
    exact ⟨h, hg, nofun⟩
  | @absent g g' source placeholder rest habsent hrest ih =>
    have hother : ∀ id other, standIn? id = some other → other.id ≠ placeholder :=
      fun id other ho same =>
        hapart.not_mem id other (extended_of_some ho) (same ▸ hpairs _ List.mem_cons_self)
    have hgone : standIn? placeholder ≠ none ∨ ¬start.hasConcept placeholder = true := by
      rwa [h.hasConcept_iff hother, not_and_or] at habsent
    have hextended : extended matched start standIn? ((source, placeholder) :: rest) =
        extended matched start standIn? rest := extended_cons_of_absent hgone
    rw [hextended] at hapart ⊢
    obtain ⟨hsubst, hwf, hall⟩ :=
      ih h hg (fun pair hp => hpairs pair (List.mem_cons_of_mem _ hp)) hapart
    refine ⟨hsubst, hwf, List.forall_mem_cons.mpr ⟨fun hc => ?_, hall⟩⟩
    obtain ⟨concept, hs⟩ := Option.ne_none_iff_exists'.mp (hgone.resolve_right (not_not_intro hc))
    rw [extended_of_some hs]
    exact Option.some_ne_none concept
  | @present g next g' source placeholder rest concept hresolved hs hrest ih =>
    have hmem : placeholder ∈ replaced := hpairs _ List.mem_cons_self
    have hother : ∀ id other, standIn? id = some other → other.id ≠ placeholder :=
      fun id other ho same => hapart.not_mem id other (extended_of_some ho) (same ▸ hmem)
    obtain ⟨hnone, hstart⟩ := (h.hasConcept_iff hother).mp (Graph.hasConcept_of_substitute hs)
    have hextended : extended matched start standIn? ((source, placeholder) :: rest) =
        extended matched start (Function.update standIn? placeholder (some concept)) rest :=
      extended_cons_of_present hnone hstart hresolved
    have hnew : extended matched start standIn? ((source, placeholder) :: rest) placeholder =
        some concept := by
      rw [hextended]
      exact extended_of_some (Function.update_self ..)
    have hfresh : concept.id ∉ replaced := hapart.not_mem placeholder concept hnew
    have hfree : standIn? concept.id = none :=
      Option.eq_none_iff_forall_ne_some.mpr fun other ho =>
        hfresh (hapart.mem concept.id other (extended_of_some ho))
    have hsame : ∀ id other, standIn? id = some other → other.id = concept.id → other = concept := by
      intro id other ho same
      have hold := hapart.get?_eq id other (extended_of_some ho)
      rw [same, hapart.get?_eq placeholder concept hnew] at hold
      exact (Option.some.inj hold).symm
    have hnext := h.substitute hg hnone (fun same => hfresh (same ▸ hmem)) hfree hother hsame hs
    rw [hextended] at hapart ⊢
    obtain ⟨hsubst, hwf, hall⟩ :=
      ih hnext (hg.substitute hs) (fun pair hp => hpairs pair (List.mem_cons_of_mem _ hp)) hapart
    refine ⟨hsubst, hwf, List.forall_mem_cons.mpr ⟨fun _ => ?_, hall⟩⟩
    rw [extended_of_some (Function.update_self ..)]
    exact Option.some_ne_none concept

end Runs

/-- The hypothesis concept from which a concept of the conclusion gets what stands in for it: the one
whose placeholder it is, or itself if it is an unknown of the hypothesis and no placeholder. -/
def sourceOf? (rule : Rule) (id : String) : Option String :=
  if rule.conclusion.hasConcept id then
    match rule.becomes.find? fun pair => pair.2 = id with
    | some pair => some pair.1
    | none => if id ∈ rule.hypothesis.unknownIds then some id else none
  else none

/-- The concept of a match that stands in for a concept of the conclusion. -/
def standIn? (rule : Rule) (matched : Graph) (id : String) : Option Concept :=
  (rule.sourceOf? id).bind fun source => (resolved matched source).toOption

/-- The ids of what may be replaced: the placeholders, and the unknowns of the hypothesis. -/
def replaceable (rule : Rule) : List String := rule.becomes.map (·.2) ++ rule.hypothesis.unknownIds

/-- A concept that gets what stands in for it occurs in the conclusion and may be replaced. -/
theorem mem_of_sourceOf (h : rule.sourceOf? id = some source) :
    rule.conclusion.hasConcept id = true ∧ id ∈ rule.replaceable := by
  unfold sourceOf? at h
  split at h
  next hc =>
    refine ⟨hc, List.mem_append.mpr ?_⟩
    split at h
    next pair hp =>
      have hsame : pair.2 = id := by simpa using List.find?_some hp
      exact .inl (hsame ▸ List.mem_map_of_mem (List.mem_of_find?_eq_some hp))
    next =>
      split at h
      next hu => exact .inr hu
      next => cases h
  next => cases h

/-- What stands in for concepts of the conclusion keeps apart from them if it has other ids. -/
theorem apart_standIn (hm : matched.WellFormed)
    (hfree : ∀ id concept, rule.standIn? matched id = some concept →
      concept.id ∉ rule.becomes.map (·.2) ∧ concept.id ∉ rule.hypothesis.unknownIds) :
    Apart matched rule.replaceable (rule.standIn? matched) where
  mem := by
    intro id concept h
    obtain ⟨source, hs, -⟩ := Option.bind_eq_some_iff.mp h
    exact (mem_of_sourceOf hs).2
  not_mem := by
    intro id concept h hr
    rcases List.mem_append.mp hr with hb | hu
    · exact (hfree id concept h).1 hb
    · exact (hfree id concept h).2 hu
  get?_eq := by
    intro id concept h
    obtain ⟨source, -, hr⟩ := Option.bind_eq_some_iff.mp h
    exact get?_of_resolved hm (eq_ok_of_toOption hr)

/-- Among pairs of equal members one is found when it is there. -/
theorem find?_diagonal (ids : List String) (id : String) :
    ((ids.map fun id => (id, id)).find? fun pair => pair.2 = id) =
      if id ∈ ids then some (id, id) else none := by
  induction ids with
  | nil => rfl
  | cons head rest ih =>
    by_cases same : head = id
    · subst same
      rw [List.map_cons, List.find?_cons_of_pos (by simp), if_pos List.mem_cons_self]
    · rw [List.map_cons, List.find?_cons_of_neg (by simpa using same), ih]
      simp [Ne.symm same]

/-- The concept of a match that stands in for a placeholder. -/
def placed (rule : Rule) (matched : Graph) : String → Option Concept :=
  extended matched rule.conclusion (fun _ => none) rule.becomes

/-- What stands in for a placeholder does so in the conclusion. -/
theorem standIn_of_placed (h : rule.placed matched id = some concept) :
    rule.standIn? matched id = some concept := by
  rw [placed, extended, Option.none_or] at h
  split at h
  next hc =>
    obtain ⟨pair, hp, hr⟩ := Option.bind_eq_some_iff.mp h
    rw [standIn?, sourceOf?, if_pos hc, hp]
    exact hr
  next => cases h

/-- What stands in for a concept that is no placeholder is what it stands for itself, if it is an unknown
of the hypothesis. -/
theorem extended_placed {ids : List String}
    (hleft : ∀ id, rule.conclusion.hasConcept id = true → rule.placed matched id = none →
      (rule.becomes.find? fun pair => pair.2 = id) = none ∧
        (id ∈ ids ↔ id ∈ rule.hypothesis.unknownIds)) :
    extended matched rule.conclusion (rule.placed matched) (ids.map fun id => (id, id)) =
      rule.standIn? matched := by
  funext id
  cases h : rule.placed matched id with
  | some concept => rw [extended_of_some h, standIn_of_placed h]
  | none =>
    rw [extended, h, Option.none_or]
    split
    next hc =>
      obtain ⟨hnot, hshared⟩ := hleft id hc h
      rw [find?_diagonal, standIn?, sourceOf?, if_pos hc, hnot]
      simp only [hshared]
      split <;> rfl
    next hc => rw [standIn?, sourceOf?, if_neg hc, Option.bind_none]

/-- Grounding replaces all concepts of the conclusion at once for which something stands in, if that has
the id of none that may be replaced. Whatever has a source is replaced. -/
theorem substituted_of_ground (hc : rule.conclusion.WellFormed)
    (hapart : Apart matched rule.replaceable (rule.standIn? matched))
    (hg : rule.ground matched = .ok result) :
    Substituted (rule.standIn? matched) rule.conclusion result ∧
      ∀ id source, rule.sourceOf? id = some source → rule.standIn? matched id ≠ none := by
  obtain ⟨g, hbecomes, hunknowns⟩ := replaces_of_ground hg
  obtain ⟨hmiddle, hw, hplaced⟩ := hbecomes.substituted (.refl rule.conclusion) hc
    (fun pair hp => List.mem_append.mpr (.inl (List.mem_map_of_mem hp)))
    (hapart.mono fun id concept h => standIn_of_placed h)
  -- What the placeholders leave to be replaced is no placeholder and still there.
  have hleft : ∀ id, rule.conclusion.hasConcept id = true → rule.placed matched id = none →
      (rule.becomes.find? fun pair => pair.2 = id) = none ∧
        (id ∈ rule.hypothesis.unknownIds.filter g.hasConcept ↔ id ∈ rule.hypothesis.unknownIds) := by
    intro id hc hnone
    constructor
    · refine List.find?_eq_none.mpr fun pair hp same => ?_
      have hsame : pair.2 = id := by simpa using same
      exact hplaced pair hp (hsame ▸ hc) (hsame ▸ hnone)
    · have hthere : g.hasConcept (image (rule.placed matched) id) = true := hmiddle.hasConcept_image hc
      rw [image, hnone] at hthere
      rw [List.mem_filter, and_iff_left hthere]
  have hall := extended_placed hleft
  have hmem : ∀ pair ∈ (rule.hypothesis.unknownIds.filter g.hasConcept).map fun id => (id, id),
      pair.2 ∈ rule.replaceable :=
    List.forall_mem_map.mpr fun id hid => List.mem_append.mpr (.inr (List.mem_of_mem_filter hid))
  obtain ⟨hend, -, hunknown⟩ := hunknowns.substituted hmiddle hw hmem (hall.symm ▸ hapart)
  refine ⟨hall ▸ hend, fun id source hs => ?_⟩
  cases h : rule.placed matched id with
  | some concept =>
    rw [standIn_of_placed h]
    exact Option.some_ne_none concept
  | none =>
    obtain ⟨hc, -⟩ := mem_of_sourceOf hs
    obtain ⟨hnot, hshared⟩ := hleft id hc h
    rw [sourceOf?, if_pos hc, hnot] at hs
    have hu : id ∈ rule.hypothesis.unknownIds := by
      by_contra hu
      simp only [if_neg hu] at hs
      cases hs
    have hreplaced := hunknown (id, id) (List.mem_map_of_mem (hshared.mpr hu)) hc
    rwa [← hall]

/-- If nothing that stands in for a concept of the conclusion has the id of a placeholder or of an
unknown of the hypothesis, grounding replaces all of them at once. What stands in is laid over a concept
of the conclusion with its id, every other concept of the conclusion is as it was, and the concepts and
triples are those of the conclusion with all names changed. -/
theorem ground_substitutes (hc : rule.conclusion.WellFormed) (hm : matched.WellFormed)
    (hfree : ∀ id concept, rule.standIn? matched id = some concept →
      concept.id ∉ rule.becomes.map (·.2) ∧ concept.id ∉ rule.hypothesis.unknownIds)
    (hg : rule.ground matched = .ok result) :
    (∀ id source, rule.sourceOf? id = some source → ∃ concept, resolved matched source = .ok concept ∧
      rule.standIn? matched id = some concept ∧
      result.concepts.get? concept.id = some (rule.conclusion.laidOver concept)) ∧
    (∀ id, rule.sourceOf? id = none →
      (∀ other concept, rule.standIn? matched other = some concept → concept.id ≠ id) →
      result.concepts.get? id = rule.conclusion.concepts.get? id) ∧
    (∀ id, result.hasConcept id = true ↔ ∃ other, rule.conclusion.hasConcept other = true ∧
      image (rule.standIn? matched) other = id) ∧
    ∀ triple, result.Says triple ↔ ∃ before, rule.conclusion.Says before ∧
      before.renamed (image (rule.standIn? matched)) = triple := by
  obtain ⟨hend, hresolves⟩ := substituted_of_ground hc (apart_standIn hm hfree) hg
  refine ⟨fun id source hs => ?_, fun id hs hother => hend.kept id ?_ hother, fun id => ?_,
    hend.says_iff⟩
  · obtain ⟨concept, hstand⟩ := Option.ne_none_iff_exists'.mp (hresolves id source hs)
    refine ⟨concept, ?_, hstand, hend.placed id concept hstand⟩
    rw [standIn?, hs, Option.bind_some] at hstand
    exact eq_ok_of_toOption hstand
  · rw [standIn?, hs, Option.bind_none]
  · refine hend.hasConcept_iff_image fun other concept hstand => ?_
    obtain ⟨source, hs, -⟩ := Option.bind_eq_some_iff.mp hstand
    exact (mem_of_sourceOf hs).1

/-- Who owns an animal feeds it, and it is a friend. Tom is a friend in any case. -/
def feeding : Rule where
  root := "feeding"
  hypothesis := Graph.ofStatements ["?owner", "?animal"] [⟨"?owner", "owns", "?animal"⟩]
  mapping := Graph.ofStatements ["pet"] []
  conclusion := Graph.ofStatements ["?owner", "pet", "friend", "tom"]
    [⟨"?owner", "feeds", "pet"⟩, ⟨"pet", "is", "friend"⟩, ⟨"tom", "is", "friend"⟩]
  becomes := [("?animal", "pet")]

/-- Ann owns Tom. -/
def annOwnsTom : Graph :=
  Graph.ofStatements ["?owner", "?animal", "ann", "tom"]
    [⟨"?owner", Matching.matchesType, "ann"⟩, ⟨"?animal", Matching.matchesType, "tom"⟩]

/-- When Ann owns Tom she feeds him, and the two friends become one. -/
theorem ground_substitutes_of_feeding :
    ∃ result, feeding.ground annOwnsTom = .ok result ∧
      feeding.sourceOf? "pet" = some "?animal" ∧ feeding.sourceOf? "?owner" = some "?owner" ∧
      result.concepts.get? "tom" = some (feeding.conclusion.laidOver (.known "tom")) ∧
      result.hasConcept "pet" = false ∧
      result.Says ⟨"ann", "feeds", "tom"⟩ ∧ result.Says ⟨"tom", "is", "friend"⟩ := by
  have hfree : ∀ id ∈ feeding.replaceable, ∀ concept ∈ feeding.standIn? annOwnsTom id,
      concept.id ∉ feeding.becomes.map (·.2) ∧ concept.id ∉ feeding.hypothesis.unknownIds := by
    decide
  have hrange : ∀ id concept, feeding.standIn? annOwnsTom id = some concept →
      concept.id ∉ feeding.becomes.map (·.2) ∧ concept.id ∉ feeding.hypothesis.unknownIds := by
    intro id concept h
    obtain ⟨source, hs, -⟩ := Option.bind_eq_some_iff.mp h
    exact hfree id (mem_of_sourceOf hs).2 concept h
  have hok : (feeding.ground annOwnsTom).isOk = true := by decide
  cases hg : feeding.ground annOwnsTom with
  | error fault =>
    rw [hg] at hok
    cases hok
  | ok result =>
    have hconclusion : feeding.conclusion.WellFormed := Graph.wellFormed_ofStatements _ _
    have hmatched : annOwnsTom.WellFormed := Graph.wellFormed_ofStatements _ _
    obtain ⟨hplaced, -, hids, hsaid⟩ := ground_substitutes hconclusion hmatched hrange hg
    have hnames : ∀ other ∈ feeding.conclusion.concepts.keys,
        image (feeding.standIn? annOwnsTom) other ≠ "pet" := by decide
    refine ⟨result, rfl, by decide, by decide, ?_, ?_, ?_, ?_⟩
    · obtain ⟨concept, hr, -, hc⟩ := hplaced "pet" "?animal" (by decide)
      have htom : resolved annOwnsTom "?animal" = .ok (.known "tom") := by decide
      rw [htom] at hr
      cases hr
      exact hc
    · refine Bool.eq_false_iff.mpr fun hpet => ?_
      obtain ⟨other, ho, hname⟩ := (hids "pet").mp hpet
      exact hnames other (Dict.mem_keys.mpr ho) hname
    · exact (hsaid _).mpr ⟨⟨"?owner", "feeds", "pet"⟩, by decide, by decide⟩
    · exact (hsaid _).mpr ⟨⟨"pet", "is", "friend"⟩, by decide, by decide⟩

end KnowledgeGraph.Rule
