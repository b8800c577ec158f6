import KnowledgeGraph.Proofs.Outline.Rooted

/-!
# What stands at the top

The concepts are considered for the top in a fixed order, and one stays there unless it was met below an
earlier one. Between two of them just what is reached from the earlier ones has been met. Main statement:
at the top stand the concepts that no relation leads to, and of the others those that are reached neither
from these nor from another one with a smaller id; every concept that is not at the top is mentioned below
one that is.
-/

namespace KnowledgeGraph

/-- An unmarked forward key has one type. -/
theorem RelationKey.text_forward_inj {type other : String} :
    text ⟨.forward, type, false⟩ = text ⟨.forward, other, false⟩ ↔ type = other := by
  rw [text_eq_text_iff, and_iff_right rfl]
  simp only [body, Bool.false_eq_true, if_false, List.append_nil, String.toList_inj]

namespace Outline

variable {g : Graph} {markFanOut : Bool} {id reference : String}

/-- One concept is considered for the top before another. -/
def Before (g : Graph) (first second : String) : Prop :=
  ¬g.Entered first ∧ g.Entered second ∨ (g.Entered first ↔ g.Entered second) ∧ first < second

/-- No concept is considered before itself. -/
theorem not_before_self : ¬Before g id id := by
  rintro (⟨hn, he⟩ | ⟨-, hlt⟩)
  · exact hn he
  · exact String.lt_irrefl id hlt

/-- Of two concepts only one is considered before the other. -/
theorem Before.not_before {first second : String} (h : Before g first second) :
    ¬Before g second first := by
  rintro (⟨hn, he⟩ | ⟨hiff, hlt⟩)
  · rcases h with ⟨hn', -⟩ | ⟨hiff, -⟩
    · exact hn' he
    · exact hn (hiff.mp he)
  · rcases h with ⟨hn', he'⟩ | ⟨-, hlt'⟩
    · exact hn' (hiff.mp he')
    · exact String.lt_asymm hlt hlt'

/-- The concepts that no relation leads to are considered first. -/
theorem topOrder_eq (g : Graph) : topOrder g =
    g.conceptList.filter (fun concept => ¬g.Entered concept.id) ++
      g.conceptList.filter fun concept => g.Entered concept.id := by
  have hentered : ∀ id, (g.relationList.any fun relation => relation.triple.target = id) =
      decide (g.Entered id) := by
    intro id
    rw [Bool.eq_iff_iff, List.any_eq_true, decide_eq_true_iff]
    simp only [decide_eq_true_eq, Graph.Entered]
  simp only [topOrder, hentered, decide_not]

/-- The concepts are considered one before the other. -/
theorem pairwise_topOrder (hw : g.WellFormed) :
    (topOrder g).Pairwise fun first second => Before g first.id second.id := by
  have hsorted : ∀ p : Concept → Bool,
      (g.conceptList.filter p).Pairwise fun first second => first.id < second.id := by
    intro p
    rw [← List.pairwise_map, hw.map_id_filter]
    exact Dict.keys_ascending _
  have hfilter : ∀ {p : Concept → Prop} [DecidablePred p] {concept : Concept},
      concept ∈ g.conceptList.filter (fun concept => p concept) → p concept :=
    fun hmem => of_decide_eq_true (List.mem_filter.mp hmem).2
  rw [topOrder_eq]
  refine List.pairwise_append.mpr ⟨?_, ?_, ?_⟩
  · exact (hsorted _).imp_of_mem fun hf hs hlt => .inr ⟨iff_of_false (hfilter hf) (hfilter hs), hlt⟩
  · exact (hsorted _).imp_of_mem fun hf hs hlt => .inr ⟨iff_of_true (hfilter hf) (hfilter hs), hlt⟩
  · exact fun first hf second hs => .inl ⟨hfilter hf, hfilter hs⟩

/-- In front of a concept stand just those that are considered before it. -/
theorem mem_front_of_topOrder (hw : g.WellFormed) {front back : List Concept} {concept : Concept}
    (h : topOrder g = front ++ concept :: back) {start : Concept} :
    start ∈ front ↔ start ∈ g.conceptList ∧ Before g start.id concept.id := by
  have horder := pairwise_topOrder hw
  rw [h] at horder
  obtain ⟨-, hback, hfront⟩ := List.pairwise_append.mp horder
  rw [← mem_topOrder, h]
  constructor
  · intro hs
    exact ⟨List.mem_append_left _ hs, hfront start hs concept List.mem_cons_self⟩
  · rintro ⟨hs, hbefore⟩
    rcases List.mem_append.mp hs with hs | hs
    · exact hs
    · rcases List.mem_cons.mp hs with rfl | hs
      · exact absurd hbefore not_before_self
      · exact absurd hbefore (List.rel_of_pairwise_cons hback hs).not_before

/-- After some concepts were considered, a concept of those that follow is left for the top when it is
reached neither from them nor from one in front of it. -/
def LeftOver (g : Graph) (done concepts : List Concept) (concept : Concept) : Prop :=
  ∃ front back, concepts = front ++ concept :: back ∧
    ∀ start ∈ done ++ front, ¬g.Reaches start.id concept.id

/-- Either the next concept is left for the top, or one that follows it. -/
theorem leftOver_cons {done rest : List Concept} {next concept : Concept} :
    LeftOver g done (next :: rest) concept ↔
      concept = next ∧ (∀ start ∈ done, ¬g.Reaches start.id next.id) ∨
        LeftOver g (done ++ [next]) rest concept := by
  constructor
  · rintro ⟨front, back, heq, hn⟩
    rcases List.cons_eq_append_iff.mp heq with ⟨rfl, hcons⟩ | ⟨more, rfl, hmore⟩
    · obtain ⟨rfl, -⟩ := List.cons.inj hcons
      rw [List.append_nil] at hn
      exact .inl ⟨rfl, hn⟩
    · rw [List.append_cons] at hn
      exact .inr ⟨more, back, hmore, hn⟩
  · rintro (⟨rfl, hn⟩ | ⟨front, back, rfl, hn⟩)
    · refine ⟨[], rest, rfl, ?_⟩
      rwa [List.append_nil]
    · refine ⟨next :: front, back, rfl, ?_⟩
      rwa [List.append_cons]

/-- Nothing is left of no concepts. -/
theorem not_leftOver_nil {done : List Concept} {concept : Concept} : ¬LeftOver g done [] concept := by
  rintro ⟨front, back, heq, -⟩
  exact absurd heq.symm (List.append_ne_nil_of_right_ne_nil _ (List.cons_ne_nil _ _))

/-- When just what is reached from some concepts has been met, the concepts that are left for the top are
put there. -/
theorem mem_keys_writeTops (h : TellsApart g markFanOut) {done concepts : List Concept}
    (hc : ∀ concept ∈ concepts, concept ∈ g.conceptList) {visited : List String}
    (hv : ∀ id, id ∈ visited ↔ ∃ start ∈ done, g.Reaches start.id id) (outline : Dict Branches) :
    reference ∈ (writeTops g markFanOut visited outline concepts).keys ↔
      reference ∈ outline.keys ∨
        ∃ concept, LeftOver g done concepts concept ∧ concept.reference = reference := by
  induction concepts generalizing done visited outline with
  | nil => simp [writeTops, not_leftOver_nil]
  | cons next rest ih =>
    have hnext := hc next List.mem_cons_self
    have hrest : ∀ other ∈ rest, other ∈ g.conceptList :=
      fun other ho => hc other (List.mem_cons_of_mem _ ho)
    have hfree : next.id ∉ visited ↔ ∀ start ∈ done, ¬g.Reaches start.id next.id := by
      simp only [hv, not_exists, not_and]
    have hclosed : g.Closed visited := by
      intro id hid other hlead
      obtain ⟨start, hs, hreach⟩ := (hv id).mp hid
      exact (hv other).mpr ⟨start, hs, hreach.tail hlead⟩
    -- Considering this concept adds what is reached from it, which is nothing new if it was met.
    have hafter : ∀ after : List String,
        (∀ id, id ∈ after ↔ id ∈ visited ∨ g.Reaches next.id id) →
        ∀ id, id ∈ after ↔ ∃ start ∈ done ++ [next], g.Reaches start.id id := by
      intro after hafter id
      rw [hafter, hv]
      simp only [List.mem_append, List.mem_singleton, or_and_right, exists_or, exists_eq_left]
    rw [writeTops]
    simp only [leftOver_cons, or_and_right, exists_or, and_assoc, exists_eq_left]
    by_cases hmet : visited.contains next.id = true
    · rw [if_pos hmet]
      rw [List.contains_iff_mem] at hmet
      have hsame : ∀ id, id ∈ visited ↔ id ∈ visited ∨ g.Reaches next.id id :=
        fun id => (or_iff_left_of_imp fun hreach => hclosed.mem_of_reaches hreach hmet).symm
      simp only [ih hrest (hafter _ hsame), ← hfree, hmet, not_true_eq_false, false_and, false_or]
    · rw [if_neg hmet]
      rw [List.contains_iff_mem] at hmet
      have hhas := Dict.contains_of_get? (h.mem_conceptList.mp hnext)
      have hmore := hafter _ fun _ => mem_writeConcept h hclosed hhas hmet
      rw [ih hrest hmore, ← hfree, and_iff_right hmet, Dict.mem_keys, Dict.mem_keys,
        Dict.contains_insert, or_comm (a := next.reference = reference), or_assoc]

/-- A concept stands at the top when no relation leads to it, or when it is reached neither from a concept
that no relation leads to nor from another one with a smaller id. -/
def OnTop (g : Graph) (id : String) : Prop :=
  ¬g.Entered id ∨ g.Entered id ∧
    (∀ source, g.hasConcept source = true → ¬g.Entered source → ¬g.Reaches source id) ∧
    ∀ other, g.Entered other → other < id → ¬g.Reaches other id

/-- A concept stands at the top just if it is not reached from one that is considered before it. -/
theorem onTop_iff (hw : g.WellFormed) : OnTop g id ↔
    ∀ start, g.hasConcept start = true → Before g start id → ¬g.Reaches start id := by
  by_cases he : g.Entered id
  · have hbefore : ∀ start, Before g start id ↔ ¬g.Entered start ∨ g.Entered start ∧ start < id := by
      intro start
      simp only [Before, he, and_true, iff_true]
    simp only [OnTop, he, not_true_eq_false, true_and, false_or, hbefore]
    constructor
    · rintro ⟨hsources, hothers⟩ start hs (hn | ⟨hentered, hlt⟩)
      · exact hsources start hs hn
      · exact hothers start hentered hlt
    · intro h
      exact ⟨fun source hs hn => h source hs (.inl hn),
        fun other ho hlt => h other (hw.hasConcept_of_entered ho) (.inr ⟨ho, hlt⟩)⟩
  · refine iff_of_true (.inl he) fun start _ hbefore hreach => he (hreach.entered ?_)
    rintro rfl
    exact not_before_self hbefore

/-- Concepts with references of their own are told apart when no key is marked. -/
theorem tellsApart_of_references (hw : g.WellFormed)
    (hr : ∀ first ∈ g.conceptList, ∀ second ∈ g.conceptList,
      first.reference = second.reference → first = second) : TellsApart g false where
  toWellFormed := hw
  eq_of_reference _ _ := eq_of_referenceTo hw hr
  eq_of_key := by
    intro relation _ other _ toAll toAll' hmark hmark' same
    have hunmarked : ∀ {mark : Bool}, (mark = true → false = true) → mark = false :=
      fun himp => Bool.eq_false_iff.mpr fun htrue => absurd (himp htrue) Bool.false_ne_true
    rw [hunmarked hmark, hunmarked hmark'] at same
    exact RelationKey.text_forward_inj.mp same

/-- The concepts that are left for the top of all that are considered are those that stand there. -/
theorem leftOver_topOrder (hw : g.WellFormed) {concept : Concept} :
    LeftOver g [] (topOrder g) concept ↔ concept ∈ g.conceptList ∧ OnTop g concept.id := by
  rw [onTop_iff hw]
  constructor
  · rintro ⟨front, back, heq, hn⟩
    refine ⟨mem_topOrder.mp (heq ▸ List.mem_append_right _ List.mem_cons_self), ?_⟩
    intro start hs hbefore
    obtain ⟨first, hf, rfl⟩ := hw.exists_mem_conceptList.mpr hs
    exact hn first ((mem_front_of_topOrder hw heq).mpr ⟨hf, hbefore⟩)
  · rintro ⟨hc, hn⟩
    obtain ⟨front, back, heq⟩ := List.append_of_mem (mem_topOrder.mpr hc)
    refine ⟨front, back, heq, fun start hs => ?_⟩
    obtain ⟨hstart, hbefore⟩ := (mem_front_of_topOrder hw heq).mp hs
    exact hn start.id (hw.exists_mem_conceptList.mp ⟨start, hstart, rfl⟩) hbefore

/-- At the top of the outline of a graph whose concepts have references of their own stand the concepts
that no relation leads to, and those that are reached neither from these nor from another one with a
smaller id. Every other concept is mentioned below one of them. -/
theorem top_iff_onTop (hw : g.WellFormed)
    (hr : ∀ first ∈ g.conceptList, ∀ second ∈ g.conceptList,
      first.reference = second.reference → first = second) :
    (∀ reference, reference ∈ (ofGraph g false).map (·.1) ↔
      ∃ concept ∈ g.conceptList, concept.reference = reference ∧ OnTop g concept.id) ∧
    ∀ concept ∈ g.conceptList, ¬OnTop g concept.id →
      concept.reference ∉ (ofGraph g false).map (·.1) ∧
      ∃ top ∈ ofGraph g false, .mention concept.reference ∈ branchesSteps top.1 top.2 := by
  have hapart := tellsApart_of_references hw hr
  have htops : ∀ reference, reference ∈ (ofGraph g false).map (·.1) ↔
      ∃ concept ∈ g.conceptList, concept.reference = reference ∧ OnTop g concept.id := by
    intro reference
    have hnothing : ∀ id, id ∈ [] ↔ ∃ start ∈ ([] : List Concept), g.Reaches start.id id := by
      simp only [List.not_mem_nil, false_and, exists_false, implies_true]
    refine (mem_keys_writeTops hapart (fun concept hc => mem_topOrder.mp hc) hnothing .empty).trans ?_
    simp only [leftOver_topOrder hw, and_assoc, and_comm (a := OnTop g _)]
    exact or_iff_right List.not_mem_nil
  refine ⟨htops, fun concept hc hn => ?_⟩
  have hnot : concept.reference ∉ (ofGraph g false).map (·.1) := by
    rw [htops]
    rintro ⟨other, ho, same, htop⟩
    exact hn (hr other ho concept hc same ▸ htop)
  have hmention := (covers_ofGraph hapart).1 concept.id (hw.exists_mem_conceptList.mp ⟨concept, hc, rfl⟩)
  rw [referenceTo_eq hw hc] at hmention
  obtain ⟨top, ht, same | hbelow⟩ := mem_conceptsSteps.mp hmention
  · rw [Step.mention.injEq] at same
    exact absurd (same ▸ List.mem_map_of_mem ht) hnot
  · exact ⟨hnot, top, ht, hbelow⟩

/-- Roads lead round between the abbey and the bridge, and the tower, from which both are reached, has the
greater id: the abbey and the tower stand at the top, the bridge does not. -/
theorem top_iff_onTop_of_roads : roads.WellFormed ∧
    (∀ first ∈ roads.conceptList, ∀ second ∈ roads.conceptList,
      first.reference = second.reference → first = second) ∧
    ((∀ reference, reference ∈ (ofGraph roads false).map (·.1) ↔
        ∃ concept ∈ roads.conceptList, concept.reference = reference ∧ OnTop roads concept.id) ∧
      ∀ concept ∈ roads.conceptList, ¬OnTop roads concept.id →
        concept.reference ∉ (ofGraph roads false).map (·.1) ∧
        ∃ top ∈ ofGraph roads false, .mention concept.reference ∈ branchesSteps top.1 top.2) ∧
    (ofGraph roads false).map (·.1) = ["?ruin", "abbey", "farm", "harbour", "tower"] := by
  have hw : roads.WellFormed := Graph.wellFormed_ofStatements _ _
  have hr : ∀ first ∈ roads.conceptList, ∀ second ∈ roads.conceptList,
      first.reference = second.reference → first = second := by decide +kernel
  exact ⟨hw, hr, top_iff_onTop hw hr, by decide +kernel⟩

end Outline

end KnowledgeGraph
