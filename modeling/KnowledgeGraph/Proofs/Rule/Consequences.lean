import KnowledgeGraph.Proofs.Matching.Cutting
import KnowledgeGraph.Proofs.Rule.Grounding
import KnowledgeGraph.Proofs.Rule.Splitting
import KnowledgeGraph.Rule.Chaining

/-!
# Consequences of a rule

What follows from a memory by a rule is what every embedding of its hypothesis leads to. A search whose
limits are large enough finds it. Rules and memories with the shape of notation have conclusions of that
shape, and what follows from a memory follows from every larger one.
-/

namespace KnowledgeGraph

namespace Rule

variable {rule : Rule} {g g' memory larger matched conclusion : Graph} {binding : Binding}
  {limits : SearchLimits}

/-- A rule has the shape of notation when its hypothesis and its conclusion have it. -/
structure NotationShaped (rule : Rule) : Prop where
  /-- The hypothesis has the shape. -/
  hypothesis : rule.hypothesis.NotationShaped
  /-- The conclusion has the shape. -/
  conclusion : rule.conclusion.NotationShaped

/-- A rule graph with the shape of notation is a rule of that shape. -/
theorem ofGraph_shaped (hg : g.NotationShaped) (h : ofGraph g = .ok rule) : rule.NotationShaped := by
  have hsplits := splits_of_ofGraph h
  constructor
  · rw [hsplits.hypothesis_eq]
    exact (hg.part _).removeRelations _
  · rw [hsplits.conclusion_eq]
    exact hg.part _

/-- What a hypothesis concept stands for is told by its id. -/
theorem resolved_eq {id : String} {concept : Concept} (hm : matched.NotationShaped)
    (h : resolved matched id = .ok concept) : concept = .ofReference concept.id := by
  unfold resolved at h
  split at h
  next => cases h
  next target ht =>
    have he := hm.requireConcept_eq h
    rw [he, Concept.ofReference_id]

/-- Replacing concepts keeps the shape of notation. -/
theorem Replaces.shaped {pairs : List (String × String)} (hm : matched.NotationShaped)
    (hr : Replaces matched g pairs g') (hg : g.NotationShaped) : g'.NotationShaped := by
  induction hr with
  | done g => exact hg
  | absent _ _ ih => exact ih hg
  | present hresolved hs _ ih =>
    rw [resolved_eq hm hresolved] at hs
    exact ih (hg.substitute hs)

/-- A rule and a match of the shape of notation lead to a conclusion of that shape. -/
theorem ground_shaped (hr : rule.NotationShaped) (hm : matched.NotationShaped)
    (h : rule.ground matched = .ok conclusion) : conclusion.NotationShaped := by
  obtain ⟨g, hplaceholders, hunknowns⟩ := replaces_of_ground h
  exact hunknowns.shaped hm (hplaceholders.shaped hm hr.conclusion)

/-- What an embedding of the hypothesis leads to has the shape of notation. -/
theorem conclude_shaped (hr : rule.NotationShaped) (hm : memory.NotationShaped)
    (hb : Matching.Embeds rule.hypothesis memory binding)
    (h : rule.conclude memory binding = .ok conclusion) : conclusion.NotationShaped := by
  unfold conclude at h
  obtain ⟨cut, hcut, h⟩ := exists_of_bind_eq_ok h
  exact ground_shaped hr (Matching.materialize_shaped hb hr.hypothesis hm hcut) h

/-- An embedding of the hypothesis leads to the same in every larger memory. -/
theorem conclude_mono (hr : rule.NotationShaped) (hm : memory.NotationShaped)
    (hl : larger.NotationShaped) (hw : memory.Within larger)
    (hb : Matching.Embeds rule.hypothesis memory binding) :
    rule.conclude memory binding = rule.conclude larger binding := by
  unfold conclude
  rw [Matching.materialize_congr hb (hb.mono hm hl hw) hr.hypothesis.toWellFormed hm hl]

/-- What follows from a memory by a rule, from every embedding of its hypothesis in order. -/
def consequences (rule : Rule) (memory : Graph) : Except Fault (List Graph) :=
  (Matching.embeddings rule.hypothesis memory).mapM (rule.conclude memory)

/-- Without limits a rule applied to a memory leads to what it leads to with all limits that are large
enough. -/
def LeadsTo (rule : Rule) (memory : Graph) (conclusions : List Graph) : Prop :=
  ∃ bound, ∀ limits : SearchLimits, bound ≤ limits.maxUnknowns → bound ≤ limits.maxResults →
    bound ≤ limits.maxSteps → rule.applyAll limits memory = .ok conclusions

/-- A memory is closed under a rule graph when the rule can be applied to it without limits and the
memory contains all that it leads to. -/
def Closes (g memory : Graph) : Prop :=
  ∃ rule conclusions, ofGraph g = .ok rule ∧ rule.LeadsTo memory conclusions ∧
    ∀ conclusion ∈ conclusions, conclusion.Within memory

/-- What a search finds is in the order of bindings already. -/
theorem sortedBindings_eq (hh : rule.hypothesis.WellFormed) (hm : memory.WellFormed) :
    sortedBindings limits rule memory = Matching.findBindings limits rule.hypothesis memory := by
  unfold sortedBindings
  cases hf : Matching.findBindings limits rule.hypothesis memory with
  | error fault => rfl
  | ok found => exact congrArg Except.ok (Matching.mergeSort_found hh hm hf)

/-- Applying a rule leads from each binding that the search finds to what it concludes. -/
theorem applyAll_eq (hh : rule.hypothesis.WellFormed) (hm : memory.WellFormed) :
    rule.applyAll limits memory =
      (Matching.findBindings limits rule.hypothesis memory >>= List.mapM (rule.conclude memory)) := by
  unfold applyAll
  rw [sortedBindings_eq hh hm]

/-- Applying a rule with limits that are large enough leads to all that follows. -/
theorem applyAll_of_ample (hh : rule.hypothesis.WellFormed) (hm : memory.WellFormed) :
    ∃ bound, ∀ limits : SearchLimits, bound ≤ limits.maxUnknowns → bound ≤ limits.maxResults →
      bound ≤ limits.maxSteps → rule.applyAll limits memory = rule.consequences memory := by
  obtain ⟨bound, hbound⟩ := Matching.findBindings_of_ample hh hm
  refine ⟨bound, fun limits hu hr hs => ?_⟩
  rw [applyAll_eq hh hm, hbound limits hu hr hs]
  rfl

/-- Without limits a rule leads to all that follows. -/
theorem leadsTo_iff {conclusions : List Graph} (hh : rule.hypothesis.WellFormed)
    (hm : memory.WellFormed) :
    rule.LeadsTo memory conclusions ↔ rule.consequences memory = .ok conclusions := by
  obtain ⟨bound, hbound⟩ := applyAll_of_ample hh hm
  constructor
  · rintro ⟨bound', hbound'⟩
    have hample := hbound ⟨bound + bound', bound + bound', bound + bound'⟩
      (Nat.le_add_right _ _) (Nat.le_add_right _ _) (Nat.le_add_right _ _)
    rw [hbound' _ (Nat.le_add_left _ _) (Nat.le_add_left _ _) (Nat.le_add_left _ _)] at hample
    exact hample.symm
  · intro hall
    refine ⟨bound, fun limits hu hr hs => ?_⟩
    rw [hbound limits hu hr hs, hall]

/-- Applying a rule leads to all that follows, if its search does not come to the result limit. -/
theorem consequences_of_applyAll {conclusions : List Graph} (hh : rule.hypothesis.WellFormed)
    (hm : memory.WellFormed) (ha : rule.applyAll limits memory = .ok conclusions)
    (hn : ∀ found, Matching.findBindings limits rule.hypothesis memory = .ok found →
      found.length ≠ limits.maxResults) : rule.consequences memory = .ok conclusions := by
  rw [applyAll_eq hh hm] at ha
  obtain ⟨found, hf, ha⟩ := exists_of_bind_eq_ok ha
  rwa [Matching.eq_embeddings_of_findBindings hh hm hf (hn found hf)] at ha

/-- What applying a rule leads to follows from embeddings of its hypothesis. -/
theorem embeds_of_applyAll {conclusions : List Graph} (hh : rule.hypothesis.WellFormed)
    (hm : memory.WellFormed) (ha : rule.applyAll limits memory = .ok conclusions)
    (hc : conclusion ∈ conclusions) :
    ∃ binding, Matching.Embeds rule.hypothesis memory binding ∧
      rule.conclude memory binding = .ok conclusion := by
  rw [applyAll_eq hh hm] at ha
  obtain ⟨found, hf, ha⟩ := exists_of_bind_eq_ok ha
  obtain ⟨binding, hb, hconclude⟩ := (mem_of_mapM_eq_ok ha).1 conclusion hc
  have hmem := Matching.mem_embeddings_of_findBindings hh hm hf hb
  exact ⟨binding, (Matching.mem_embeddings_iff hh hm).mp hmem, hconclude⟩

/-- What an embedding into a memory leads to is contained in every larger memory that is closed. -/
theorem within_of_closes (hr : rule.NotationShaped) (hm : memory.NotationShaped)
    (hl : larger.NotationShaped) (hw : memory.Within larger) (hg : ofGraph g = .ok rule)
    (hcloses : Closes g larger) (hb : Matching.Embeds rule.hypothesis memory binding)
    (h : rule.conclude memory binding = .ok conclusion) : conclusion.Within larger := by
  obtain ⟨same, conclusions, hsame, hall, hwithin⟩ := hcloses
  rw [hg] at hsame
  cases hsame
  have hh := hr.hypothesis.toWellFormed
  have hmem := (Matching.mem_embeddings_iff hh hl.toWellFormed).mpr
    (hb.mono hm hl hw)
  obtain ⟨further, hf, hconclude⟩ := (mem_of_mapM_eq_ok ((leadsTo_iff hh hl.toWellFormed).mp hall)).2 binding hmem
  rw [← conclude_mono hr hm hl hw hb, h] at hconclude
  cases hconclude
  exact hwithin conclusion hf

end Rule

end KnowledgeGraph
