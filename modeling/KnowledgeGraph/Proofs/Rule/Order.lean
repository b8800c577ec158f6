import KnowledgeGraph.Proofs.Graph.Merging
import KnowledgeGraph.Proofs.Rule.Fixpoint

/-!
# The order of rules

What the rules lead to is merged one after the other, and a merge may be refused and lays the second
graph over the first. Among graphs with the shape of notation neither depends on the order: graphs merge
when some graph of that shape contains them all, and to the least one that does. Main statement: a run
over such a memory by such rules answers with the same report and the same memory whatever the order of
the rules.
-/

namespace KnowledgeGraph

namespace Graph.Within

variable {g other : Graph}

/-- Of graphs with the shape of notation the larger one keeps what the smaller one says. -/
theorem keptBy (hw : g.Within other) (hg : g.NotationShaped) (ho : other.NotationShaped) :
    g.KeptBy other := by
  rintro id triple ⟨relation, hr, ht⟩
  exact ⟨relation, hw.get?_relation hg ho hr, ht⟩

/-- Graphs with the shape of notation that contain each other are the same. -/
theorem antisymm (hw : g.Within other) (hw' : other.Within g) (hg : g.NotationShaped)
    (ho : other.NotationShaped) : g = other := by
  refine hg.toWellFormed.eq_of_parts ho.toWellFormed ?_ ?_
  · ext id concept
    exact ⟨hw.get?_concept hg ho, hw'.get?_concept ho hg⟩
  · ext id relation
    exact ⟨hw.get?_relation hg ho, hw'.get?_relation ho hg⟩

end Graph.Within

namespace Chaining

variable {limits : SearchLimits} {rules rules' : List Rule}
  {memory derived derived' bound final : Graph} {others others' : List Graph}
  {firings firings' rounds : Nat} {report report' : Report}

/-- Graphs with the shape of notation merge one after the other if one of that shape contains them
all. -/
theorem mergeAll_of_bound (hb : bound.NotationShaped) (hd : derived.NotationShaped)
    (ho : ∀ other ∈ others, other.NotationShaped) (hw : derived.Within bound)
    (hall : ∀ other ∈ others, other.Within bound) :
    ∃ derived', mergeAll derived others = .ok derived' := by
  induction others generalizing derived with
  | nil => exact ⟨derived, rfl⟩
  | cons other rest ih =>
    obtain ⟨hother, hrest⟩ := List.forall_mem_cons.mp ho
    obtain ⟨hwithin, hrests⟩ := List.forall_mem_cons.mp hall
    obtain ⟨next, hm, -⟩ := (hw.keptBy hd hb).merge hother.toWellFormed (hwithin.keptBy hother hb)
    have heq := (Graph.toExcept_eq_ok.mp hm).2
    have hnext : next.NotationShaped := heq ▸ hd.merge hother
    have hnextBound : next.Within bound := heq ▸ Graph.Within.merge hother.toWellFormed hw hwithin
    obtain ⟨derived', hd'⟩ := ih hnext hrest hnextBound hrests
    exact ⟨derived', by rw [mergeAll, hm]; exact hd'⟩

/-- Graphs with the shape of notation merge to the same in any order. -/
theorem mergeAll_perm (hp : others.Perm others') (hd : derived.NotationShaped)
    (ho : ∀ other ∈ others, other.NotationShaped) (h : mergeAll derived others = .ok derived') :
    mergeAll derived others' = .ok derived' := by
  have ho' : ∀ other ∈ others', other.NotationShaped := fun other hm => ho other (hp.mem_iff.mpr hm)
  obtain ⟨hshaped, hwithin, hall, hleast⟩ := mergeAll_least hd ho h
  have hall' : ∀ other ∈ others', other.Within derived' :=
    fun other hm => hall other (hp.mem_iff.mpr hm)
  obtain ⟨merged, hmerged⟩ := mergeAll_of_bound hshaped hd ho' hwithin hall'
  obtain ⟨hmshaped, hmwithin, hmall, hmleast⟩ := mergeAll_least hd ho' hmerged
  have hle : merged.Within derived' := hmleast derived' hwithin hall'
  have hge : derived'.Within merged :=
    hleast merged hmwithin fun other hm => hmall other (hp.mem_iff.mp hm)
  rw [hmerged, hle.antisymm hge hmshaped hshaped]

/-- Graphs are merged in one go or in two. -/
theorem mergeAll_append (g : Graph) (others others' : List Graph) :
    mergeAll g (others ++ others') = mergeAll g others >>= fun merged => mergeAll merged others' := by
  induction others generalizing g with
  | nil => rfl
  | cons other rest ih =>
    rw [List.cons_append, mergeAll, mergeAll]
    cases (g.merge other).toExcept with
    | ok next => exact ih next
    | error fault => rfl

/-- What a round derives is what all rules lead to, merged, and each match counts as a firing. -/
theorem derive_eq_ok_iff :
    derive limits memory derived firings rules = .ok (derived', firings') ↔
      ∃ conclusions, rules.mapM (·.applyAll limits memory) = .ok conclusions ∧
        mergeAll derived conclusions.flatten = .ok derived' ∧
        firings + conclusions.flatten.length = firings' := by
  induction rules generalizing derived firings with
  | nil =>
    constructor
    · intro h
      cases h
      exact ⟨[], rfl, rfl, rfl⟩
    · rintro ⟨conclusions, ha, hm, rfl⟩
      cases ha
      cases hm
      rfl
  | cons rule rest ih =>
    rw [derive, List.mapM_cons]
    constructor
    · intro h
      obtain ⟨first, ha, h⟩ := exists_of_bind_eq_ok h
      obtain ⟨next, hm, h⟩ := exists_of_bind_eq_ok h
      obtain ⟨conclusions, hc, hmerge, hcount⟩ := ih.mp h
      refine ⟨first :: conclusions, ?_, ?_, ?_⟩
      · rw [ha, hc]
        rfl
      · rw [List.flatten_cons, mergeAll_append, hm]
        exact hmerge
      · rw [List.flatten_cons, List.length_append, ← Nat.add_assoc]
        exact hcount
    · rintro ⟨conclusions, h, hmerge, hcount⟩
      obtain ⟨first, ha, h⟩ := exists_of_bind_eq_ok h
      obtain ⟨others, hc, h⟩ := exists_of_bind_eq_ok h
      cases h
      rw [List.flatten_cons, mergeAll_append] at hmerge
      obtain ⟨next, hm, hmerge⟩ := exists_of_bind_eq_ok hmerge
      rw [List.flatten_cons, List.length_append, ← Nat.add_assoc] at hcount
      rw [ha]
      change (mergeAll derived first >>= fun next => _) = _
      rw [hm]
      exact ih.mpr ⟨others, hc, hmerge, hcount⟩

/-- What rules of the shape of notation lead to from a memory of that shape has it as well. -/
theorem conclusions_shaped {conclusions : List (List Graph)}
    (hr : ∀ rule ∈ rules, rule.NotationShaped) (hm : memory.NotationShaped)
    (h : rules.mapM (·.applyAll limits memory) = .ok conclusions) :
    ∀ conclusion ∈ conclusions.flatten, conclusion.NotationShaped := by
  intro conclusion hc
  obtain ⟨list, hl, hc⟩ := List.mem_flatten.mp hc
  obtain ⟨rule, hrule, ha⟩ := (mem_of_mapM_eq_ok h).1 list hl
  have hshaped := hr rule hrule
  obtain ⟨binding, hb, hconclude⟩ :=
    Rule.embeds_of_applyAll hshaped.hypothesis.toWellFormed hm.toWellFormed ha hc
  exact Rule.conclude_shaped hshaped hm hb hconclude

/-- A round derives the same by the rules in any order. -/
theorem derive_perm (hp : rules.Perm rules') (hr : ∀ rule ∈ rules, rule.NotationShaped)
    (hm : memory.NotationShaped)
    (h : derive limits memory .empty 0 rules = .ok (derived, firings)) :
    derive limits memory .empty 0 rules' = .ok (derived, firings) := by
  obtain ⟨conclusions, ha, hmerge, hcount⟩ := derive_eq_ok_iff.mp h
  obtain ⟨rearranged, ha', hperm⟩ := exists_perm_of_mapM_eq_ok hp ha
  refine derive_eq_ok_iff.mpr ⟨rearranged, ha', ?_, ?_⟩
  · exact mergeAll_perm hperm.flatten .empty (conclusions_shaped hr hm ha) hmerge
  · rw [← hperm.flatten.length_eq]
    exact hcount

/-- Rounds by the rules in any order give the same report and the same memory. -/
theorem runRounds_perm (hp : rules.Perm rules') (hr : ∀ rule ∈ rules, rule.NotationShaped)
    (hm : memory.NotationShaped)
    (h : runRounds limits rules rounds report memory = (.ok report', final)) :
    runRounds limits rules' rounds report memory = (.ok report', final) := by
  induction rounds generalizing report memory with
  | zero => exact h
  | succ rounds ih =>
    rw [runRounds] at h ⊢
    cases hderive : derive limits memory .empty 0 rules with
    | error fault =>
      rw [hderive] at h
      cases h
    | ok pair =>
      obtain ⟨derived, firings⟩ := pair
      have hshaped := (derive_least hr hm Graph.NotationShaped.empty hderive).1
      have hgrown := hm.merge hshaped
      rw [derive_perm hp hr hm hderive]
      simp only [hderive] at h ⊢
      cases hmerge : memory.merge derived with
      | mk grown fault =>
        rw [hmerge] at hgrown
        cases fault with
        | some fault =>
          simp only [hmerge] at h
          cases h
        | none =>
          simp only [hmerge] at h ⊢
          split
          next hsame => rwa [if_pos hsame] at h
          next hmore =>
            rw [if_neg hmore] at h
            exact ih hgrown h

/-- A run by rule graphs of the shape of notation that succeeds succeeds with the rules in any order, and
gives the same. -/
theorem run_eq_ok_of_perm {sources sources' : List Graph} {maxRounds : Nat}
    (hp : sources.Perm sources') (hr : ∀ g ∈ sources, g.NotationShaped) (hm : memory.NotationShaped)
    (h : run limits sources memory maxRounds = (.ok report, final)) :
    run limits sources' memory maxRounds = (.ok report, final) := by
  unfold run at h ⊢
  cases hcheck : Limits.checkRounds maxRounds with
  | error violation =>
    simp only [hcheck] at h
    cases h
  | ok =>
    cases hparse : sources.mapM Rule.ofGraph with
    | error fault =>
      simp only [hcheck, hparse] at h
      cases h
    | ok parsed =>
      obtain ⟨parsed', hparse', hperm⟩ := exists_perm_of_mapM_eq_ok hp hparse
      have hshaped : ∀ rule ∈ parsed, rule.NotationShaped := by
        intro rule hrule
        obtain ⟨g, hg, he⟩ := (mem_of_mapM_eq_ok hparse).1 rule hrule
        exact Rule.ofGraph_shaped (hr g hg) he
      simp only [hcheck, hparse] at h
      simp only [hparse']
      exact runRounds_perm hperm hshaped hm h

/-- The order of the rules does not matter: for rule graphs and a memory of the shape of notation a run
succeeds with the rules in one order just when it does in any other, with the same report and the same
final memory. -/
theorem run_perm {sources sources' : List Graph} {maxRounds : Nat} (hp : sources.Perm sources')
    (hr : ∀ g ∈ sources, g.NotationShaped) (hm : memory.NotationShaped) :
    run limits sources memory maxRounds = (.ok report, final) ↔
      run limits sources' memory maxRounds = (.ok report, final) := by
  constructor
  · exact run_eq_ok_of_perm hp hr hm
  · exact run_eq_ok_of_perm hp.symm (fun g hg => hr g (hp.mem_iff.mpr hg)) hm

/-- The rule that an ancestor is a person. -/
def personhood : Graph :=
  .ofStatements ["personhood", "?x", "?y", "person"]
    [⟨"?x", "ancestor", "?y"⟩, ⟨"?x", "is", "person"⟩, ⟨"personhood", "has_hypothesis", "?x"⟩,
      ⟨"personhood", "has_hypothesis", "?y"⟩, ⟨"personhood", "has_conclusion", "?x"⟩,
      ⟨"personhood", "has_conclusion", "person"⟩]

/-- The rule taken apart. -/
def personhoodRule : Rule where
  root := "personhood"
  hypothesis := .ofStatements ["?x", "?y"] [⟨"?x", "ancestor", "?y"⟩]
  mapping := .empty
  conclusion := .ofStatements ["?x", "person"] [⟨"?x", "is", "person"⟩]
  becomes := []

/-- What the two rules lead to from three generations. -/
def kinship : Graph :=
  .ofStatements ["x", "y", "z", "person"]
    [⟨"x", "ancestor", "z"⟩, ⟨"x", "is", "person"⟩, ⟨"y", "is", "person"⟩]

/-- Three generations with all ancestors, who are persons. -/
def people : Graph :=
  .ofStatements ["x", "y", "z", "person"]
    [⟨"x", "ancestor", "y"⟩, ⟨"y", "ancestor", "z"⟩, ⟨"x", "ancestor", "z"⟩, ⟨"x", "is", "person"⟩,
      ⟨"y", "is", "person"⟩]

/-- Two rules that both lead to something about the first generation are run in either order. -/
theorem run_perm_of_family :
    [ancestry, personhood].Perm [personhood, ancestry] ∧
      run {} [ancestry, personhood] family 10 = (.ok ⟨2, 7, 1, 3, true⟩, people) ∧
      run {} [personhood, ancestry] family 10 = (.ok ⟨2, 7, 1, 3, true⟩, people) := by
  have hparse : [ancestry, personhood].mapM Rule.ofGraph = .ok [ancestryRule, personhoodRule] := by
    decide +kernel
  have hh : ancestryRule.hypothesis.WellFormed := Graph.wellFormed_ofStatements _ _
  have hh' : personhoodRule.hypothesis.WellFormed := Graph.wellFormed_ofStatements _ _
  have hfamily : family.WellFormed := Graph.wellFormed_ofStatements _ _
  have hpeople : people.WellFormed := Graph.wellFormed_ofStatements _ _
  have hfirst : derive {} family .empty 0 [ancestryRule, personhoodRule] = .ok (kinship, 3) := by
    simp only [derive, Rule.applyAll_eq hh hfamily, Rule.applyAll_eq hh' hfamily]
    decide +kernel
  have hsecond : derive {} people .empty 0 [ancestryRule, personhoodRule] = .ok (kinship, 4) := by
    simp only [derive, Rule.applyAll_eq hh hpeople, Rule.applyAll_eq hh' hpeople]
    decide +kernel
  have hadded : family.merge kinship = ⟨people, none⟩ := Graph.eq_mk_of_toExcept (by decide +kernel)
  have hnone : people.merge kinship = ⟨people, none⟩ := Graph.eq_mk_of_toExcept (by decide +kernel)
  have hconcepts : people.concepts.size = 4 ∧ family.concepts.size = 3 := by decide +kernel
  have hrelations : people.relations.size = 5 ∧ family.relations.size = 2 := by decide +kernel
  have hrounds : Limits.checkRounds 10 = .ok () := by decide
  have hrun : run {} [ancestry, personhood] family 10 = (.ok ⟨2, 7, 1, 3, true⟩, people) := by
    simp only [run, hparse, hrounds, runRounds, hfirst, hadded, hsecond, hnone, hconcepts, hrelations]
    rfl
  have hrules : ∀ g ∈ [ancestry, personhood], g.NotationShaped :=
    List.forall_mem_cons.mpr ⟨.ofStatements _ _, List.forall_mem_singleton.mpr (.ofStatements _ _)⟩
  have hswap : [ancestry, personhood].Perm [personhood, ancestry] := .swap _ _ _
  exact ⟨hswap, hrun, (run_perm hswap hrules (.ofStatements _ _)).mp hrun⟩

end Chaining

end KnowledgeGraph
