import KnowledgeGraph.Proofs.Store.Rules

/-!
# Rules among facts

A rule that is kept in one graph with facts comes back as it was built, however many facts are about its
concepts, as long as none leads from one of them to another and none names a part of it: all its concepts
are the root and what the root leads to, and only relations between these are given out with them. Main
statement: `rule_among_facts`.
-/

namespace KnowledgeGraph

/-- A rule graph that is built from well-formed parts under a name, which was given to it or drawn. -/
def RuleDraft.BuiltAs (name : String) (g : Graph) : Prop :=
  ∃ (draft : RuleDraft) (ids : IdSource) (united : Graph), draft.Sound ∧ draft.union = .ok united ∧
    draft.rootIn ids united = name ∧ (draft.build ids).1 = .ok g

/-- A rule with a given name is built under it. -/
theorem RuleDraft.Built.builtAs {name : String} {g : Graph} (h : RuleDraft.Built name g) :
    RuleDraft.BuiltAs name g := by
  obtain ⟨draft, ids, hw, hn, hbuilt⟩ := h
  obtain ⟨united, hunion, -⟩ := exists_of_build hw hbuilt
  refine ⟨draft, ids, united, hw, hunion, ?_, hbuilt⟩
  rw [rootIn, hn, Option.getD_some]

/-- A rule is put together under the name it is built under. -/
theorem RuleDraft.BuiltAs.completes {name : String} {g : Graph} (h : RuleDraft.BuiltAs name g) :
    ∃ draft : RuleDraft, draft.Completes name g := by
  obtain ⟨draft, ids, united, hw, hunion, hname, hbuilt⟩ := h
  obtain ⟨united', hunion', hc⟩ := exists_of_build hw hbuilt
  rw [hunion] at hunion'
  cases hunion'
  rw [hname] at hc
  exact ⟨draft, hc⟩

namespace Store

variable {facts built stored : Graph} {name : String}

/-- A graph whose relations do not lie between concepts of a rule leaves the rule as it is. -/
theorem ruleNamed_of_apart (h : built.Joins facts stored) (hr : RuleDraft.BuiltAs name built)
    (hbetween : ∀ triple, facts.Says triple →
      ¬(built.hasConcept triple.source = true ∧ built.hasConcept triple.target = true))
    (hparts : ∀ (part : RulePart) target, ¬facts.Says ⟨name, part.type, target⟩) :
    ruleNamed stored name = .ok built := by
  obtain ⟨draft, hc⟩ := hr.completes
  obtain ⟨ids, hrule, hids⟩ := ruleNamed_of_spans h hc.spans hparts
  have hsame : stored.part ids = built := by
    refine (h.part_eq_iff hc.wellFormed hids).mpr fun id relation hrelation hs ht => ?_
    exact absurd ⟨hs, ht⟩ (hbetween _ (Graph.says_iff.mpr ⟨id, relation, hrelation, rfl⟩))
  rw [hrule, hsame]

/-- A rule that was built under a name comes back from among facts as it was built, with all ids and
attributes, in whichever order the two were merged into what a store holds. The facts may be about its
concepts, on which both agree, but none leads from one of these to another, and none from the name to a
part. -/
theorem rule_among_facts (hr : RuleDraft.BuiltAs name built) (hf : facts.WellFormed)
    (hbetween : ∀ triple, facts.Says triple →
      ¬(built.hasConcept triple.source = true ∧ built.hasConcept triple.target = true))
    (hparts : ∀ (part : RulePart) target, ¬facts.Says ⟨name, part.type, target⟩)
    (ha : facts.ConceptsAgree built)
    (hm : (facts.merge built).toExcept = .ok stored ∨ (built.merge facts).toExcept = .ok stored) :
    ruleNamed stored name = .ok built ∧
      ∀ store : Store, store.Holds stored → store.rule name = .ok built := by
  obtain ⟨draft, hc⟩ := hr.completes
  have ha' : built.ConceptsAgree facts := fun id concept found hb hf => (ha id found concept hf hb).symm
  have hjoins : built.Joins facts stored := by
    rcases hm with hm | hm
    · exact Graph.joins_right hf hc.wellFormed ha hm
    · exact Graph.joins_left hc.wellFormed hf ha' hm
  have hrule := ruleNamed_of_apart hjoins hr hbetween hparts
  refine ⟨hrule, fun store hholds => ?_⟩
  rw [rule, hholds.load_eq]
  exact hrule

/-- A stone is a thing, things are studied, and the rule about them was written down. -/
def stones : Graph :=
  .ofStatements ["stone", "thing", "physics", "being", "book"]
    [⟨"stone", "is", "thing"⟩, ⟨"physics", "studies", "thing"⟩, ⟨"being", "is in", "book"⟩]

/-- The rule comes back from among these facts, whichever was stored first. -/
theorem rule_among_facts_of_stones :
    ∃ stored stored', (stones.merge being).toExcept = .ok stored ∧
      (being.merge stones).toExcept = .ok stored' ∧ stored.hasTriple ⟨"stone", "is", "thing"⟩ = true ∧
      (memory stored).rule "being" = .ok being ∧ ruleNamed stored' "being" = .ok being := by
  have hfacts : stones.WellFormed := Graph.wellFormed_ofStatements _ _
  have hagree : stones.ConceptsAgree being :=
    RuleDraft.conceptsAgree_of_shaped (.ofStatements _ _) (.ofStatements _ _)
  have hlists : ∀ relation ∈ stones.relationList,
      ¬(being.hasConcept relation.triple.source = true ∧ being.hasConcept relation.triple.target = true) ∧
        ∀ part ∈ RulePart.all, relation.triple.type ≠ part.type := by decide +kernel
  have hbetween : ∀ triple, stones.Says triple →
      ¬(being.hasConcept triple.source = true ∧ being.hasConcept triple.target = true) := by
    rintro _ ⟨relation, hr, rfl⟩
    exact (hlists relation hr).1
  have hparts : ∀ (part : RulePart) target, ¬stones.Says ⟨"being", part.type, target⟩ := by
    rintro part target ⟨relation, hr, ht⟩
    exact (hlists relation hr).2 part part.mem_all (congrArg Triple.type ht)
  have hm : (stones.merge being).toExcept = .ok (stones.merge being).graph :=
    Graph.toExcept_eq_ok.mpr ⟨by decide +kernel, rfl⟩
  have hm' : (being.merge stones).toExcept = .ok (being.merge stones).graph :=
    Graph.toExcept_eq_ok.mpr ⟨by decide +kernel, rfl⟩
  obtain ⟨-, hrule⟩ := rule_among_facts built_being.builtAs hfacts hbetween hparts hagree (.inl hm)
  obtain ⟨hrule', -⟩ := rule_among_facts built_being.builtAs hfacts hbetween hparts hagree (.inr hm')
  exact ⟨_, _, hm, hm', by decide +kernel, hrule (memory _) rfl, hrule'⟩

end Store

end KnowledgeGraph
