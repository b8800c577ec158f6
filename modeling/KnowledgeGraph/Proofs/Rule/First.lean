import KnowledgeGraph.Proofs.Rule.Resolution

/-!
# The first match

A search lists the embeddings of a query in strictly increasing order and leaves out the last ones where
it finds more than it may. So the first match of a rule is the same for all limits on results, and it is
the one that leads to the first of all conclusions. Main statement: `applyFirst_least`.
-/

namespace KnowledgeGraph

namespace Matching

variable {query data : Graph} {limits : SearchLimits} {found : List Binding} {binding : Binding}

/-- An embedding that a search leaves out comes after as many others as it may find. -/
theorem precedes_of_not_found (hq : query.WellFormed) (hd : data.WellFormed)
    (h : findBindings limits query data = .ok found) (he : Embeds query data binding)
    (hn : binding ∉ found) :
    found.length = limits.maxResults ∧ ∀ earlier ∈ found, Precedes earlier binding := by
  have hfound := eq_take_of_findBindings hq hd h
  have hmem := (mem_embeddings_iff hq hd).mpr he
  have hordered := embeddings_precede hq hd
  constructor
  · by_contra hlength
    exact hn (eq_embeddings_of_findBindings hq hd h hlength ▸ hmem)
  · rw [← List.take_append_drop limits.maxResults (embeddings query data), ← hfound] at hmem hordered
    have hleft := (List.mem_append.mp hmem).resolve_left hn
    exact fun earlier hearlier => (List.pairwise_append.mp hordered).2.2 earlier hearlier binding hleft

/-- A search that answers finds the first embedding, if there is one. -/
theorem head?_found (hq : query.WellFormed) (hd : data.WellFormed)
    (h : findBindings limits query data = .ok found) : found.head? = (embeddings query data).head? := by
  obtain ⟨hr, -⟩ := limits_of_findBindings h
  rw [eq_take_of_findBindings hq hd h, List.head?_take, if_neg (by omega)]

end Matching

namespace Rule

variable {rule : Rule} {g g' memory matched conclusion : Graph} {conclusions : List Graph}
  {pairs : List (String × String)} {binding : Binding} {found : List Binding} {limits : SearchLimits}

/-- A graph with a concept is not empty. -/
theorem isEmpty_of_hasConcept {id : String} (h : g.hasConcept id = true) : g.isEmpty = false := by
  obtain ⟨concept, hc⟩ := Graph.hasConcept_iff.mp h
  have hm := Dict.mem_entries.mpr hc
  unfold Graph.isEmpty Dict.isEmpty
  rw [List.isEmpty_eq_false_iff.mpr (List.ne_nil_of_mem hm), Bool.false_and]

/-- The conclusion of a rule has a concept. -/
theorem exists_hasConcept_conclusion (hg : g.WellFormed) (h : ofGraph g = .ok rule) :
    ∃ id, rule.conclusion.hasConcept id = true := by
  have hsplits := splits_of_ofGraph h
  obtain ⟨target, ht⟩ := List.exists_mem_of_ne_nil _ hsplits.targets_ne
  refine ⟨target, ?_⟩
  rw [hsplits.conclusion_eq, hasConcept_spanned hg]
  exact Graph.mem_targetsOf.mp ht

/-- A graph in which concepts are replaced has a concept if it had one before. -/
theorem Replaces.exists_hasConcept (h : Replaces matched g pairs g')
    (hc : ∃ id, g.hasConcept id = true) : ∃ id, g'.hasConcept id = true := by
  induction h with
  | done g => exact hc
  | absent _ _ ih => exact ih hc
  | present _ hs _ ih =>
    obtain ⟨id, hid⟩ := hc
    exact ih ⟨_, (Graph.hasConcept_iff_of_substitute hs).mpr ⟨id, hid, rfl⟩⟩

/-- What follows from a match is not empty. -/
theorem isEmpty_conclude (hg : g.WellFormed) (hrule : ofGraph g = .ok rule)
    (h : rule.conclude memory binding = .ok conclusion) : conclusion.isEmpty = false := by
  unfold conclude at h
  obtain ⟨matched, -, hground⟩ := exists_of_bind_eq_ok h
  obtain ⟨middle, hplaceholders, hunknowns⟩ := replaces_of_ground hground
  obtain ⟨id, hid⟩ := hunknowns.exists_hasConcept
    (hplaceholders.exists_hasConcept (exists_hasConcept_conclusion hg hrule))
  exact isEmpty_of_hasConcept hid

/-- Applying a rule once leads to what follows from the first binding that the search finds. -/
theorem applyFirst_of_found (hh : rule.hypothesis.WellFormed) (hm : memory.WellFormed)
    (h : Matching.findBindings limits rule.hypothesis memory = .ok found) :
    rule.applyFirst limits memory =
      (found.head?.map (rule.conclude memory)).getD (.ok .empty) := by
  unfold applyFirst
  rw [sortedBindings_eq hh hm, h]
  cases found <;> rfl

/-- The first of all conclusions is what follows from the first embedding of the hypothesis. -/
theorem head?_of_applyAll (hh : rule.hypothesis.WellFormed) (hm : memory.WellFormed)
    (h : rule.applyAll limits memory = .ok conclusions) :
    ((Matching.embeddings rule.hypothesis memory).head?.map (rule.conclude memory)).getD (.ok .empty) =
        .ok (conclusions.head?.getD .empty) ∧
      (conclusions.head? = none ↔ (Matching.embeddings rule.hypothesis memory).head? = none) := by
  rw [applyAll_eq hh hm] at h
  obtain ⟨found, hfound, hconclude⟩ := exists_of_bind_eq_ok h
  rw [← Matching.head?_found hh hm hfound]
  cases found with
  | nil =>
    cases hconclude
    exact ⟨rfl, fun _ => rfl, fun _ => rfl⟩
  | cons binding rest =>
    rw [List.mapM_cons] at hconclude
    obtain ⟨first, hfirst, hconclude⟩ := exists_of_bind_eq_ok hconclude
    obtain ⟨others, -, hconclude⟩ := exists_of_bind_eq_ok hconclude
    cases hconclude
    exact ⟨hfirst, ⟨nofun, nofun⟩⟩

/-- If a rule can be applied to all its matches, applying it once leads to the first of all conclusions,
whatever limit the search has on its results, as long as it does not run out of steps; without any it
leads to the empty graph. No conclusion is empty, so that this is the answer just when the hypothesis has
no embedding. The searches of matching list embeddings in strictly increasing order, which sorting does
not change, and leave out only such as come after all that they find. -/
theorem applyFirst_least (hg : g.WellFormed) (hm : memory.WellFormed) (hrule : ofGraph g = .ok rule)
    (hall : rule.applyAll limits memory = .ok conclusions) :
    (∀ wanted, 1 ≤ wanted →
      Matching.findBindings { limits with maxResults := wanted } rule.hypothesis memory ≠
        .error (.searchBudgetExceeded limits.maxSteps) →
      rule.applyFirst { limits with maxResults := wanted } memory =
        .ok (conclusions.head?.getD .empty)) ∧
    (∀ conclusion ∈ conclusions, conclusion.isEmpty = false) ∧
    ((conclusions.head?.getD .empty).isEmpty = true ↔
      ¬∃ binding, Matching.Embeds rule.hypothesis memory binding) ∧
    ∀ (query data : Graph) (allowed : SearchLimits) (found : List Binding), query.WellFormed →
      data.WellFormed → Matching.findBindings allowed query data = .ok found →
      found.Pairwise Matching.Precedes ∧ found.mergeSort Binding.le = found ∧
        ∀ binding, Matching.Embeds query data binding → binding ∉ found →
          found.length = allowed.maxResults ∧ ∀ earlier ∈ found, Matching.Precedes earlier binding := by
  obtain ⟨hh, -⟩ := wellFormed_of_ofGraph hg hrule
  obtain ⟨hfirst, hnone⟩ := head?_of_applyAll hh hm hall
  have hsome : ∀ conclusion ∈ conclusions, conclusion.isEmpty = false := by
    intro conclusion hc
    obtain ⟨binding, -, hconclude⟩ := embeds_of_applyAll hh hm hall hc
    exact isEmpty_conclude hg hrule hconclude
  refine ⟨fun wanted hw hbudget => ?_, hsome, ?_, fun query data allowed found hq hd hfound =>
    ⟨Matching.found_precede hq hd hfound, Matching.mergeSort_found hq hd hfound,
      fun binding he hn => Matching.precedes_of_not_found hq hd hfound he hn⟩⟩
  · have hunknowns : rule.hypothesis.unknownIds.length ≤ limits.maxUnknowns := by
      rw [applyAll_eq hh hm] at hall
      obtain ⟨found, hfound, -⟩ := exists_of_bind_eq_ok hall
      exact (Matching.limits_of_findBindings hfound).2
    rcases @Matching.findBindings_eq _ _ { limits with maxResults := wanted } hh hm hw hunknowns with
      hfound | ⟨hspent, -⟩
    · rw [applyFirst_of_found hh hm hfound, Matching.head?_found hh hm hfound, hfirst]
    · exact absurd hspent hbudget
  · have hembeds : (Matching.embeddings rule.hypothesis memory).head? = none ↔
        ¬∃ binding, Matching.Embeds rule.hypothesis memory binding := by
      rw [List.head?_eq_none_iff, List.eq_nil_iff_forall_not_mem, not_exists]
      exact forall_congr' fun binding => not_congr (Matching.mem_embeddings_iff hh hm)
    rw [← hembeds, ← hnone]
    cases conclusions with
    | nil => exact ⟨fun _ => rfl, fun _ => rfl⟩
    | cons first rest =>
      have hfull : first.isEmpty = false := hsome first List.mem_cons_self
      rw [List.head?_cons, Option.getD_some, hfull]
      exact ⟨nofun, nofun⟩

/-- A glove fits a hand and a sock fits a shoe. -/
def wardrobe : Graph :=
  .ofStatements ["sock", "shoe", "glove", "hand"] [⟨"sock", "fits", "shoe"⟩, ⟨"glove", "fits", "hand"⟩]

/-- Something is wearable. -/
def wearing (id : String) : Graph := .ofStatements [id, "wearable"] [⟨id, "is", "wearable"⟩]

/-- Of the glove and the sock the glove is taken, also where no more than one match is looked for. -/
theorem applyFirst_least_of_wardrobe :
    ofGraph (pairing "fits") = .ok (pairingRule "fits") ∧
      (pairingRule "fits").applyAll {} wardrobe = .ok [wearing "glove", wearing "sock"] ∧
      (pairingRule "fits").applyFirst { maxResults := 1 } wardrobe = .ok (wearing "glove") ∧
      ∃ binding, Matching.Embeds (pairingRule "fits").hypothesis wardrobe binding := by
  have hg : (pairing "fits").WellFormed := Graph.wellFormed_ofStatements _ _
  have hm : wardrobe.WellFormed := Graph.wellFormed_ofStatements _ _
  have hrule : ofGraph (pairing "fits") = .ok (pairingRule "fits") := by decide +kernel
  have hall : (pairingRule "fits").applyAll {} wardrobe = .ok [wearing "glove", wearing "sock"] := by
    rw [applyAll_eq (wellFormed_of_ofGraph hg hrule).1 hm]
    decide +kernel
  have hbudget : Matching.findBindings { maxResults := 1 } (pairingRule "fits").hypothesis wardrobe ≠
      .error (.searchBudgetExceeded ({} : SearchLimits).maxSteps) := by decide +kernel
  obtain ⟨hfirst, hsome, hnone, -⟩ := applyFirst_least hg hm hrule hall
  have hfull : (wearing "glove").isEmpty = false := hsome _ List.mem_cons_self
  refine ⟨hrule, hall, hfirst 1 (Nat.le_refl 1) hbudget, not_not.mp fun h => ?_⟩
  have hempty := hnone.mpr h
  rw [List.head?_cons, Option.getD_some, hfull] at hempty
  cases hempty

end Rule

end KnowledgeGraph
