import KnowledgeGraph.Proofs.Graph.Parts
import KnowledgeGraph.Proofs.Graph.Saying
import KnowledgeGraph.Rule.Basic

/-!
# Which graphs are rules

A graph is a rule when one concept, and no other, has a hypothesis and is in no conclusion, when it has a
conclusion, and when each replacement starts in the hypothesis or belongs to a rule in the conclusion. All
of this is told by what the graph says. The parts of the rule are then those that the root spans, and its
replacements are those said outside of the conclusion.
-/

namespace KnowledgeGraph

/-- Sorted keys are the keys. -/
theorem Dict.mem_sortedKeys {keys : List String} {key : String} : key ∈ sortedKeys keys ↔ key ∈ keys := by
  have hfind : ∀ entries : List (String × Unit), (Ascending.find? key entries).isSome = true ↔
      key ∈ entries.map (·.1) := by
    intro entries
    induction entries with
    | nil => simp [Ascending.find?]
    | cons head rest ih =>
      by_cases hk : head.1 = key
      · simp [Ascending.find?, hk]
      · simp [Ascending.find?, hk, Ne.symm hk, ih]
  rw [sortedKeys, mem_keys, contains, ofList, get?_insertMany, get?_empty, Option.or_none, hfind]
  simp

namespace Graph

variable {g : Graph} {relation : Relation} {id type root : String}

/-- What is left when all relations of a type are removed. -/
theorem WellFormed.get?_removeOfType (h : g.WellFormed) :
    (g.removeRelations ((g.relationsOfType type).map (·.id))).relations.get? id = some relation ↔
      g.relations.get? id = some relation ∧ relation.triple.type ≠ type := by
  have hgone : ∀ relation, g.relations.get? id = some relation →
      (id ∈ (g.relationsOfType type).map (·.id) ↔ relation.triple.type = type) := by
    intro relation hr
    have hid := h.relation_id id relation hr
    subst hid
    simp only [relationsOfType, List.mem_map, List.mem_filter, decide_eq_true_eq]
    constructor
    · rintro ⟨other, ⟨ho, htype⟩, hsame⟩
      have hother := h.mem_relationList.mp ho
      rw [hsame, hr, Option.some.injEq] at hother
      rw [hother, htype]
    · intro htype
      exact ⟨relation, ⟨h.mem_relationList.mpr hr, htype⟩, rfl⟩
  rw [removeRelations_eq, Dict.get?_foldl_erase]
  constructor
  · intro hr
    split at hr
    next => cases hr
    next hstays => exact ⟨hr, fun htype => hstays ((hgone relation hr).mpr htype)⟩
  · rintro ⟨hr, htype⟩
    rw [if_neg fun hid => htype ((hgone relation hr).mp hid)]
    exact hr

/-- A definition has the concepts of the graph to which the root has a relation of the type. -/
theorem WellFormed.get?_definitionOf (h : g.WellFormed) {concept : Concept} :
    (g.definitionOf root type).concepts.get? id = some concept ↔
      g.concepts.get? id = some concept ∧ g.Says ⟨root, type, id⟩ := by
  rw [definitionOf, h.part_concepts, Dict.get?_filter, Option.filter_eq_some_iff, List.contains_iff_mem,
    mem_targetsOf]

end Graph

namespace Rule

/-- The graph of a part. -/
def part (rule : Rule) : RulePart → Graph
  | .hypothesis => rule.hypothesis
  | .mapping => rule.mapping
  | .conclusion => rule.conclusion

/-- The part that a root spans; the hypothesis is without replacements. -/
def spanned (g : Graph) (root : String) : RulePart → Graph
  | .hypothesis =>
    let pattern := g.definitionOf root RulePart.hypothesis.type
    pattern.removeRelations ((pattern.relationsOfType becomesType).map (·.id))
  | .mapping => g.definitionOf root RulePart.mapping.type
  | .conclusion => g.definitionOf root RulePart.conclusion.type

variable {g : Graph} {rule : Rule} {root id : String} {part : RulePart} {triple : Triple}
  {hypothesis conclusion : Graph} {relations : List Relation} {pairs : List (String × String)}

/-- A concept has a hypothesis and is in no conclusion. -/
def IsRoot (g : Graph) (id : String) : Prop :=
  (∃ target, g.Says ⟨id, RulePart.hypothesis.type, target⟩) ∧
    ∀ source, ¬g.Says ⟨source, RulePart.conclusion.type, id⟩

/-- Roots are listed. -/
theorem mem_roots : id ∈ roots g ↔ IsRoot g id := by
  simp only [roots, Dict.mem_sortedKeys, List.mem_filter, List.mem_map, Graph.relationsOfType,
    decide_eq_true_eq, Bool.not_eq_true', ← Bool.not_eq_true, List.contains_iff_mem, IsRoot]
  refine and_congr ⟨?_, ?_⟩ ⟨?_, ?_⟩
  · rintro ⟨relation, ⟨hr, htype⟩, rfl⟩
    exact ⟨relation.triple.target, relation, hr, by rw [← htype]⟩
  · rintro ⟨target, relation, hr, ht⟩
    exact ⟨relation, ⟨hr, congrArg Triple.type ht⟩, congrArg Triple.source ht⟩
  · rintro hnone source ⟨relation, hr, ht⟩
    exact hnone ⟨relation, ⟨hr, congrArg Triple.type ht⟩, congrArg Triple.target ht⟩
  · rintro hnone ⟨relation, ⟨hr, htype⟩, rfl⟩
    exact hnone relation.triple.source ⟨relation, hr, by rw [← htype]⟩

/-- The root of a rule is its only one. -/
theorem root?_eq_ok : root? g = .ok root ↔ ∀ id, IsRoot g id ↔ id = root := by
  have hnodup : (roots g).Nodup := Dict.keys_nodup _
  have honly : root? g = .ok root ↔ roots g = [root] := by
    unfold root?
    split
    next only hroots => simp [hroots]
    next hroots => simp [hroots]
    next hother _ => exact ⟨nofun, fun hroots => (hother root hroots).elim⟩
  simp only [honly, ← mem_roots]
  constructor
  · intro hroots id
    rw [hroots, List.mem_singleton]
  · intro hall
    have hperm : (roots g).Perm [root] :=
      (List.perm_ext_iff_of_nodup hnodup (List.nodup_singleton root)).mpr fun id => by
        rw [hall, List.mem_singleton]
    exact List.perm_singleton.mp hperm

/-- A spanned part is well-formed. -/
theorem wellFormed_spanned (hg : g.WellFormed) (root : String) (part : RulePart) :
    (spanned g root part).WellFormed := by
  cases part with
  | hypothesis => exact (hg.part _).removeRelations _
  | mapping => exact hg.part _
  | conclusion => exact hg.part _

/-- A spanned part has the concepts to which the root has a relation of its type. -/
theorem get?_concept_spanned (hg : g.WellFormed) {concept : Concept} :
    (spanned g root part).concepts.get? id = some concept ↔
      g.concepts.get? id = some concept ∧ g.Says ⟨root, part.type, id⟩ := by
  cases part with
  | hypothesis =>
    rw [spanned, Graph.removeRelations_eq]
    exact hg.get?_definitionOf
  | mapping => exact hg.get?_definitionOf
  | conclusion => exact hg.get?_definitionOf

/-- A spanned part has the concepts to which the root has a relation of its type. -/
theorem hasConcept_spanned (hg : g.WellFormed) :
    (spanned g root part).hasConcept id = true ↔ g.Says ⟨root, part.type, id⟩ := by
  simp only [Graph.hasConcept_iff, get?_concept_spanned hg, exists_and_right]
  refine and_iff_right_of_imp fun hsaid => ?_
  exact Graph.hasConcept_iff.mp (hg.ends_of_says hsaid).2

/-- A spanned part has the relations between its concepts; the hypothesis has no replacements. -/
theorem get?_relation_spanned (hg : g.WellFormed) {relation : Relation} :
    (spanned g root part).relations.get? id = some relation ↔ g.relations.get? id = some relation ∧
      g.Says ⟨root, part.type, relation.triple.source⟩ ∧
      g.Says ⟨root, part.type, relation.triple.target⟩ ∧
      (part = .hypothesis → relation.triple.type ≠ becomesType) := by
  have hbetween : (g.definitionOf root part.type).relations.get? id = some relation ↔
      g.relations.get? id = some relation ∧ g.Says ⟨root, part.type, relation.triple.source⟩ ∧
        g.Says ⟨root, part.type, relation.triple.target⟩ := by
    rw [Graph.definitionOf, hg.get?_part, Graph.mem_targetsOf, Graph.mem_targetsOf]
  cases part with
  | hypothesis =>
    rw [spanned, Graph.definitionOf, (hg.part _).get?_removeOfType, ← Graph.definitionOf, hbetween]
    simp only [and_assoc, true_imp_iff]
  | mapping =>
    simp only [reduceCtorEq, false_imp_iff, and_true]
    exact hbetween
  | conclusion =>
    simp only [reduceCtorEq, false_imp_iff, and_true]
    exact hbetween

/-- A spanned part says what the graph says of its concepts; the hypothesis says no replacements. -/
theorem says_spanned (hg : g.WellFormed) : (spanned g root part).Says triple ↔
    g.Says triple ∧ g.Says ⟨root, part.type, triple.source⟩ ∧ g.Says ⟨root, part.type, triple.target⟩ ∧
      (part = .hypothesis → triple.type ≠ becomesType) := by
  simp only [Graph.says_iff (g := spanned g root part), get?_relation_spanned hg]
  constructor
  · rintro ⟨id, relation, ⟨hr, hs, ht, htype⟩, rfl⟩
    exact ⟨Graph.says_iff.mpr ⟨id, relation, hr, rfl⟩, hs, ht, htype⟩
  · rintro ⟨hsaid, hs, ht, htype⟩
    obtain ⟨id, relation, hr, rfl⟩ := Graph.says_iff.mp hsaid
    exact ⟨id, relation, ⟨hr, hs, ht, htype⟩, rfl⟩

/-- Whether a relation does not stand within a conclusion. -/
def outside (conclusion : Graph) (relation : Relation) : Bool :=
  !(conclusion.hasConcept relation.triple.source && conclusion.hasConcept relation.triple.target)

/-- Relations say replacements when those outside of the conclusion start in the hypothesis, and these are
the replacements they say. -/
theorem replacements_eq_ok : replacements root hypothesis conclusion relations = .ok pairs ↔
    (∀ relation ∈ relations.filter (outside conclusion),
      hypothesis.hasConcept relation.triple.source = true) ∧
    pairs = (relations.filter (outside conclusion)).map fun relation =>
      (relation.triple.source, relation.triple.target) := by
  induction relations generalizing pairs with
  | nil => exact ⟨fun h => ⟨nofun, (Except.ok.inj h).symm⟩, fun h => congrArg Except.ok h.2.symm⟩
  | cons head rest ih =>
    rw [replacements]
    split
    next hinside =>
      have hout : ¬outside conclusion head = true := by simp [outside, hinside]
      rw [ih, List.filter_cons_of_neg hout]
    next houtside =>
      have hout : outside conclusion head = true := by
        rw [outside, Bool.not_eq_true']
        exact Bool.eq_false_iff.mpr houtside
      rw [List.filter_cons_of_pos hout, List.forall_mem_cons, List.map_cons]
      split
      next hstray =>
        refine ⟨nofun, fun hall => ?_⟩
        rw [hall.1.1] at hstray
        cases hstray
      next hthere =>
        have hsource : hypothesis.hasConcept head.triple.source = true := by simpa using hthere
        constructor
        · intro h
          obtain ⟨others, ho, h⟩ := exists_of_bind_eq_ok h
          cases h
          obtain ⟨hall, hothers⟩ := ih.mp ho
          exact ⟨⟨hsource, hall⟩, by rw [hothers]⟩
        · rintro ⟨⟨-, hall⟩, rfl⟩
          rw [ih.mpr ⟨hall, rfl⟩]
          rfl

/-- Replacements are removed from the hypothesis one after the other. -/
theorem spanned_hypothesis : spanned g root .hypothesis =
    ((g.definitionOf root RulePart.hypothesis.type).relationsOfType becomesType).foldl
      (fun pattern relation => (pattern.removeRelation relation.id).2)
      (g.definitionOf root RulePart.hypothesis.type) := by
  rw [spanned, Graph.removeRelations, List.foldl_map]

/-- A rule has the one root of its graph, the parts that this spans, and the replacements outside of the
conclusion. -/
structure Splits (g : Graph) (rule : Rule) : Prop where
  /-- The root is the only one. -/
  root_eq : root? g = .ok rule.root
  /-- There is a conclusion. -/
  targets_ne : g.targetsOf rule.root RulePart.conclusion.type ≠ []
  /-- The parts are spanned by the root. -/
  part_eq : ∀ part, rule.part part = spanned g rule.root part
  /-- The replacements are those of the relations that say some. -/
  becomes_eq : replacements rule.root rule.hypothesis rule.conclusion (g.relationsOfType becomesType) =
    .ok rule.becomes

/-- A graph that is a rule is split into its parts. -/
theorem splits_of_ofGraph (h : ofGraph g = .ok rule) : Splits g rule := by
  have hsplit := eq_ok_of_mapError h
  unfold split at hsplit
  obtain ⟨root, hroot, hsplit⟩ := exists_of_bind_eq_ok hsplit
  split at hsplit
  next => cases hsplit
  next hsome =>
    obtain ⟨becomes, hbecomes, hsplit⟩ := exists_of_bind_eq_ok hsplit
    cases hsplit
    refine ⟨hroot, fun hnone => hsome (List.isEmpty_iff.mpr hnone), fun part => ?_, hbecomes⟩
    cases part with
    | hypothesis => exact spanned_hypothesis.symm
    | mapping => rfl
    | conclusion => rfl

/-- The hypothesis is spanned by the root. -/
theorem Splits.hypothesis_eq (h : Splits g rule) : rule.hypothesis = spanned g rule.root .hypothesis :=
  h.part_eq .hypothesis

/-- The conclusion is spanned by the root. -/
theorem Splits.conclusion_eq (h : Splits g rule) : rule.conclusion = spanned g rule.root .conclusion :=
  h.part_eq .conclusion

/-- The root is what is a root. -/
theorem Splits.isRoot_iff (h : Splits g rule) (id : String) : IsRoot g id ↔ id = rule.root :=
  root?_eq_ok.mp h.root_eq id

/-- A graph with one root, a conclusion and replacements is a rule. -/
theorem exists_of_root? (hroot : root? g = .ok root)
    (hsome : g.targetsOf root RulePart.conclusion.type ≠ [])
    (hpairs : replacements root (spanned g root .hypothesis) (spanned g root .conclusion)
      (g.relationsOfType becomesType) = .ok pairs) : ∃ rule, ofGraph g = .ok rule ∧ rule.root = root := by
  have hempty : ¬(g.targetsOf root RulePart.conclusion.type).isEmpty = true :=
    fun hnone => hsome (List.isEmpty_iff.mp hnone)
  rw [spanned_hypothesis, spanned] at hpairs
  unfold ofGraph split
  rw [hroot]
  simp only [bind, Except.bind, if_neg hempty, hpairs]
  exact ⟨_, rfl, rfl⟩

/-- A graph is a rule with a root. -/
structure IsRule (g : Graph) (root : String) : Prop where
  /-- The concept is the one root. -/
  isRoot_iff : ∀ id, IsRoot g id ↔ id = root
  /-- It has a conclusion. -/
  concludes : ∃ target, g.Says ⟨root, RulePart.conclusion.type, target⟩
  /-- A replacement starts in the hypothesis, or both its ends are in the conclusion. -/
  replaces : ∀ source target, g.Says ⟨source, becomesType, target⟩ →
    ¬(g.Says ⟨root, RulePart.conclusion.type, source⟩ ∧
      g.Says ⟨root, RulePart.conclusion.type, target⟩) →
    g.Says ⟨root, RulePart.hypothesis.type, source⟩

/-- A relation of a type is one that says a triple of that type. -/
theorem mem_relationsOfType {type : String} {relation : Relation} :
    relation ∈ g.relationsOfType type ↔ relation ∈ g.relationList ∧ relation.triple.type = type := by
  rw [Graph.relationsOfType, List.mem_filter, decide_eq_true_eq]

/-- A relation stands outside of a conclusion when the root does not conclude both its ends. -/
theorem outside_spanned (hg : g.WellFormed) {relation : Relation} :
    outside (spanned g root .conclusion) relation = true ↔
      ¬(g.Says ⟨root, RulePart.conclusion.type, relation.triple.source⟩ ∧
        g.Says ⟨root, RulePart.conclusion.type, relation.triple.target⟩) := by
  rw [outside, Bool.not_eq_true', ← Bool.not_eq_true, Bool.and_eq_true, hasConcept_spanned hg,
    hasConcept_spanned hg]

/-- Which graphs are rules is told by what they say. -/
theorem exists_ofGraph_iff (hg : g.WellFormed) :
    (∃ rule, ofGraph g = .ok rule ∧ rule.root = root) ↔ IsRule g root := by
  constructor
  · rintro ⟨rule, h, rfl⟩
    have hsplits := splits_of_ofGraph h
    obtain ⟨target, ht⟩ := List.exists_mem_of_ne_nil _ hsplits.targets_ne
    have hstart := (replacements_eq_ok.mp hsplits.becomes_eq).1
    rw [hsplits.hypothesis_eq, hsplits.conclusion_eq] at hstart
    refine ⟨hsplits.isRoot_iff, ⟨target, Graph.mem_targetsOf.mp ht⟩, ?_⟩
    rintro source target ⟨relation, hr, ht⟩ houtside
    have hmem : relation ∈ g.relationsOfType becomesType :=
      mem_relationsOfType.mpr ⟨hr, congrArg Triple.type ht⟩
    have hout : outside (spanned g rule.root .conclusion) relation = true := by
      rw [outside_spanned hg, ht]
      exact houtside
    have hsource := (hasConcept_spanned hg).mp (hstart relation (List.mem_filter.mpr ⟨hmem, hout⟩))
    rw [ht] at hsource
    exact hsource
  · intro h
    obtain ⟨target, ht⟩ := h.concludes
    refine exists_of_root? (root?_eq_ok.mpr h.isRoot_iff)
      (List.ne_nil_of_mem (Graph.mem_targetsOf.mpr ht)) (replacements_eq_ok.mpr ⟨?_, rfl⟩)
    intro relation hr
    obtain ⟨hr, houtside⟩ := List.mem_filter.mp hr
    obtain ⟨hr, htype⟩ := mem_relationsOfType.mp hr
    refine (hasConcept_spanned hg).mpr (h.replaces _ relation.triple.target ?_ ?_)
    · exact ⟨relation, hr, by rw [← htype]⟩
    · exact (outside_spanned hg).mp houtside

/-- A concept of a part is what it is in the graph. -/
theorem get?_concept_part (hg : g.WellFormed) (h : ofGraph g = .ok rule)
    (hid : (rule.part part).hasConcept id = true) :
    (rule.part part).concepts.get? id = g.concepts.get? id := by
  obtain ⟨concept, hc⟩ := Graph.hasConcept_iff.mp hid
  rw [hc]
  rw [(splits_of_ofGraph h).part_eq, get?_concept_spanned hg] at hc
  exact hc.1.symm

/-- The replacements of a rule are those that its graph says outside of the conclusion. -/
theorem mem_becomes (hg : g.WellFormed) (h : ofGraph g = .ok rule) {source target : String} :
    (source, target) ∈ rule.becomes ↔ g.Says ⟨source, becomesType, target⟩ ∧
      ¬(g.Says ⟨rule.root, RulePart.conclusion.type, source⟩ ∧
        g.Says ⟨rule.root, RulePart.conclusion.type, target⟩) := by
  have hsplits := splits_of_ofGraph h
  rw [(replacements_eq_ok.mp hsplits.becomes_eq).2, hsplits.conclusion_eq, List.mem_map]
  constructor
  · rintro ⟨relation, hr, hends⟩
    obtain ⟨hr, houtside⟩ := List.mem_filter.mp hr
    obtain ⟨hr, htype⟩ := mem_relationsOfType.mp hr
    cases hends
    exact ⟨⟨relation, hr, by rw [← htype]⟩, (outside_spanned hg).mp houtside⟩
  · rintro ⟨⟨relation, hr, ht⟩, houtside⟩
    refine ⟨relation, List.mem_filter.mpr ⟨mem_relationsOfType.mpr ⟨hr, ?_⟩, ?_⟩, ?_⟩
    · rw [ht]
    · rw [outside_spanned hg, ht]
      exact houtside
    · rw [ht]

/-- A rule has each replacement once, if the relations that say them have the ids of their triples. -/
theorem nodup_becomes (hg : g.WellFormed) (h : ofGraph g = .ok rule)
    (hown : ∀ relation ∈ g.relationsOfType becomesType, relation = .ofTriple relation.triple) :
    rule.becomes.Nodup := by
  have hlist : g.relationList.Nodup := hg.nodup_relationIds.of_map
  rw [(replacements_eq_ok.mp (splits_of_ofGraph h).becomes_eq).2]
  refine List.Nodup.map_on ?_ ((hlist.filter _).filter _)
  intro first hf second hs hsame
  have hf := List.mem_of_mem_filter hf
  have hs := List.mem_of_mem_filter hs
  obtain ⟨hsource, htarget⟩ := Prod.mk.inj hsame
  have htype : first.triple.type = second.triple.type :=
    (mem_relationsOfType.mp hf).2.trans (mem_relationsOfType.mp hs).2.symm
  have htriple : first.triple = second.triple := by
    rw [Triple.mk.injEq]
    exact ⟨hsource, htype, htarget⟩
  rw [hown first hf, hown second hs, htriple]

end Rule

end KnowledgeGraph
