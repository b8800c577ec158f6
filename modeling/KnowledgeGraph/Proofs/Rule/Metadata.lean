import KnowledgeGraph.Proofs.Graph.Metadata
import KnowledgeGraph.Proofs.Results
import KnowledgeGraph.Proofs.Rule.Grounding
import KnowledgeGraph.Proofs.Rule.Splitting
import KnowledgeGraph.Rule.Chaining

/-!
# Metadata under chaining

What follows from a memory by rules carries no other metadata than the memory and the rules do, and so
does the memory after any number of rounds.
-/

namespace KnowledgeGraph

variable {keep : Dict Json → Prop} {query data g g' memory matched : Graph} {binding : Binding}
  {concept : Concept}

/-- A concept that is required of a graph has metadata that the graph carries. -/
theorem Graph.Carries.requireConcept {id : String} (h : g.Carries keep)
    (hr : g.requireConcept id = .ok concept) : keep concept.metadata :=
  h.concept id concept (requireConcept_eq_ok.mp hr)

namespace Matching

section Lasting

variable (hk : Graph.Lasting keep)

include hk

/-- Data concepts are added as they are. -/
theorem addResolved_carries {concepts : List Concept} (hg : g.Carries keep) (hd : data.Carries keep)
    (h : addResolved data binding g concepts = .ok g') : g'.Carries keep := by
  induction concepts generalizing g with
  | nil =>
    cases h
    exact hg
  | cons concept rest ih =>
    obtain ⟨resolved, hresolved, h⟩ := exists_of_bind_eq_ok h
    exact ih (hg.addConcept hk (hd.requireConcept hresolved)) h

/-- Query relations are added as they are. -/
theorem addMissing_carries {relations : List Relation} (hg : g.Carries keep)
    (hr : ∀ relation ∈ relations, keep relation.metadata) (h : addMissing g relations = .ok g') :
    g'.Carries keep := by
  induction relations generalizing g with
  | nil =>
    cases h
    exact hg
  | cons relation rest ih =>
    obtain ⟨hfirst, hrest⟩ := List.forall_mem_cons.mp hr
    rw [addMissing] at h
    split at h
    next => exact ih hg hrest h
    next =>
      obtain ⟨next, hadd, h⟩ := exists_of_bind_eq_ok h
      exact ih (hg.addRelation hk hfirst hadd) hrest h

/-- Links have no metadata. -/
theorem addLinks_carries {concepts : List Concept} (hg : g.Carries keep)
    (h : addLinks binding g concepts = .ok g') : g'.Carries keep := by
  induction concepts generalizing g with
  | nil =>
    cases h
    exact hg
  | cons concept rest ih =>
    rw [addLinks] at h
    obtain ⟨⟨created, next⟩, hadd, h⟩ := exists_of_bind_eq_ok h
    exact ih (hg.addTripleIfAbsent hk hadd) h

omit hk in
/-- Query concepts are added as they are. -/
theorem addConceptsIfAbsent_carries {concepts : List Concept} (hg : g.Carries keep)
    (hc : ∀ concept ∈ concepts, keep concept.metadata) :
    (concepts.foldl (fun g concept => (g.addConceptIfAbsent concept.id concept).2) g).Carries keep := by
  induction concepts generalizing g with
  | nil => exact hg
  | cons concept rest ih =>
    obtain ⟨hfirst, hrest⟩ := List.forall_mem_cons.mp hc
    exact ih (hg.addConceptIfAbsent hfirst concept.id) hrest

/-- What a binding cuts out carries what the query and the data carry. -/
theorem materialize_carries {includeQuery : Bool} (hq : query.Carries keep) (hd : data.Carries keep)
    (h : materialize includeQuery query data binding = .ok g) : g.Carries keep := by
  obtain ⟨hqueryConcepts, hqueryRelations⟩ := Graph.carries_iff.mp hq
  obtain ⟨-, hdataRelations⟩ := Graph.carries_iff.mp hd
  unfold materialize at h
  obtain ⟨found, hfound, h⟩ := exists_of_bind_eq_ok h
  obtain ⟨cut, hcut, h⟩ := exists_of_bind_eq_ok h
  have hrelations : ∀ relation ∈ resolvedRelations query data binding, keep relation.metadata := by
    intro relation hr
    obtain ⟨wanted, -, hr⟩ := List.mem_flatMap.mp hr
    exact hdataRelations relation (List.mem_of_mem_filter (List.mem_of_mem_filter hr))
  have hcarried : cut.Carries keep := by
    rw [← (Graph.toExcept_eq_ok.mp hcut).2]
    exact (addResolved_carries hk Graph.carries_empty hd hfound).addRelations hk hrelations
  split at h
  next =>
    unfold addQuery at h
    obtain ⟨laid, hlaid, h⟩ := exists_of_bind_eq_ok h
    exact addLinks_carries hk (addMissing_carries hk
      (addConceptsIfAbsent_carries hcarried hqueryConcepts) hqueryRelations hlaid) h
  next =>
    cases h
    exact hcarried

end Lasting

end Matching

namespace Rule

variable {rule : Rule}

/-- A part of a rule carries what the rule graph carries. -/
theorem part_carries (hg : g.Carries keep) (h : ofGraph g = .ok rule) (part : RulePart) :
    (rule.part part).Carries keep := by
  rw [(splits_of_ofGraph h).part_eq]
  cases part with
  | hypothesis => exact (hg.part _).removeRelations _
  | mapping => exact hg.part _
  | conclusion => exact hg.part _

section Lasting

variable (hk : Graph.Lasting keep)

include hk

/-- What replaces concepts carries what the match carries. -/
theorem Replaces.carries {pairs : List (String × String)} (h : Replaces matched g pairs g')
    (hm : matched.Carries keep) (hg : g.Carries keep) : g'.Carries keep := by
  induction h with
  | done g => exact hg
  | absent _ _ ih => exact ih hg
  | present hresolved hs _ ih =>
    refine ih ?_
    rw [← (Graph.toExcept_eq_ok.mp hs).2]
    refine hg.substitute hk ?_
    unfold resolved at hresolved
    split at hresolved
    next => cases hresolved
    next => exact hm.requireConcept hresolved

/-- What follows from a binding carries what the rule and the memory carry. -/
theorem conclude_carries (hr : ∀ part, (rule.part part).Carries keep) (hm : memory.Carries keep)
    (h : rule.conclude memory binding = .ok g) : g.Carries keep := by
  unfold conclude at h
  obtain ⟨matched, hmatched, h⟩ := exists_of_bind_eq_ok h
  have hfound := Matching.materialize_carries hk (hr .hypothesis) hm hmatched
  obtain ⟨middle, hplaceholders, hunknowns⟩ := replaces_of_ground h
  exact hunknowns.carries hk hfound (hplaceholders.carries hk hfound (hr .conclusion))

/-- So does all that follows by a rule. -/
theorem applyAll_carries {limits : SearchLimits} {conclusions : List Graph}
    (hr : ∀ part, (rule.part part).Carries keep) (hm : memory.Carries keep)
    (h : rule.applyAll limits memory = .ok conclusions) :
    ∀ conclusion ∈ conclusions, conclusion.Carries keep := by
  unfold applyAll at h
  obtain ⟨bindings, -, h⟩ := exists_of_bind_eq_ok h
  intro conclusion hc
  obtain ⟨binding, -, hconclude⟩ := (mem_of_mapM_eq_ok h).1 conclusion hc
  exact conclude_carries hk hr hm hconclude

end Lasting

end Rule

namespace Chaining

variable {limits : SearchLimits} {rules : List Rule}

section Lasting

variable (hk : Graph.Lasting keep)

include hk

/-- Graphs that are merged carry what each of them carries. -/
theorem mergeAll_carries {others : List Graph} (hg : g.Carries keep)
    (ho : ∀ other ∈ others, other.Carries keep) (h : mergeAll g others = .ok g') :
    g'.Carries keep := by
  induction others generalizing g with
  | nil =>
    cases h
    exact hg
  | cons other rest ih =>
    obtain ⟨hother, hrest⟩ := List.forall_mem_cons.mp ho
    rw [mergeAll] at h
    obtain ⟨next, hmerge, h⟩ := exists_of_bind_eq_ok h
    refine ih ?_ hrest h
    rw [← (Graph.toExcept_eq_ok.mp hmerge).2]
    exact hg.merge hk hother

/-- What follows by all rules carries what they and the memory carry. -/
theorem derive_carries {firings firings' : Nat}
    (hr : ∀ rule ∈ rules, ∀ part, (rule.part part).Carries keep) (hm : memory.Carries keep)
    (hg : g.Carries keep) (h : derive limits memory g firings rules = .ok (g', firings')) :
    g'.Carries keep := by
  induction rules generalizing g firings with
  | nil =>
    cases h
    exact hg
  | cons rule rest ih =>
    obtain ⟨hrule, hrest⟩ := List.forall_mem_cons.mp hr
    rw [derive] at h
    obtain ⟨conclusions, happly, h⟩ := exists_of_bind_eq_ok h
    obtain ⟨next, hmerge, h⟩ := exists_of_bind_eq_ok h
    exact ih hrest (mergeAll_carries hk hg (Rule.applyAll_carries hk hrule hm happly) hmerge) h

/-- After any number of rounds a memory carries what it and the rules carried, also where one fails. -/
theorem runRounds_carries {rounds : Nat} {report : Report}
    (hr : ∀ rule ∈ rules, ∀ part, (rule.part part).Carries keep) (hm : memory.Carries keep) :
    (runRounds limits rules rounds report memory).2.Carries keep := by
  induction rounds generalizing report memory with
  | zero => exact hm
  | succ rounds ih =>
    rw [runRounds]
    cases hderive : derive limits memory .empty 0 rules with
    | error fault => exact hm
    | ok pair =>
      obtain ⟨derived, firings⟩ := pair
      have hgrown := hm.merge hk (derive_carries hk hr hm Graph.carries_empty hderive)
      cases hmerge : memory.merge derived with
      | mk grown fault =>
        rw [hmerge] at hgrown
        cases fault with
        | some fault =>
          simp only [hmerge]
          exact hgrown
        | none =>
          simp only [hmerge]
          split
          next => exact hgrown
          next => exact ih hgrown

/-- So it does after a run. -/
theorem run_carries {sources : List Graph} {maxRounds : Nat} (hs : ∀ source ∈ sources, source.Carries keep)
    (hm : memory.Carries keep) : (run limits sources memory maxRounds).2.Carries keep := by
  unfold run
  cases Limits.checkRounds maxRounds with
  | error violation => exact hm
  | ok =>
    cases hparse : sources.mapM Rule.ofGraph with
    | error fault => exact hm
    | ok rules =>
      refine runRounds_carries hk (fun rule hr part => ?_) hm
      obtain ⟨source, hsource, hof⟩ := (mem_of_mapM_eq_ok hparse).1 rule hr
      exact Rule.part_carries (hs source hsource) hof part

end Lasting

end Chaining

end KnowledgeGraph
