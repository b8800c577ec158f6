import KnowledgeGraph.Proofs.Rule.Bare
import KnowledgeGraph.Proofs.Rule.Fixpoint

/-!
# Running again

Whether a round was the last one is told by counting concepts and relations. A round that adds none may
still make an unknown concept known, and then a further round may find more. Main statement: if the last
round of a run leaves the known concepts what they are, a further run adds nothing.
-/

namespace KnowledgeGraph.Chaining

variable {limits : SearchLimits} {rules : List Rule} {memory last derived derived' grown final : Graph}
  {firings : Nat}

/-- A round by which a memory grows, without fault. -/
structure Round (limits : SearchLimits) (rules : List Rule) (memory derived : Graph) (firings : Nat)
    (grown : Graph) : Prop where
  /-- What follows from the memory is derived. -/
  derive_eq : derive limits memory .empty 0 rules = .ok (derived, firings)
  /-- It is merged into the memory. -/
  merge_eq : memory.merge derived = ⟨grown, none⟩

/-- A run that reaches its fixpoint ends with a round that adds no concept and no relation. -/
theorem last_of_runRounds {rounds : Nat} {report report' : Report} (hm : memory.WellFormed)
    (h : runRounds limits rules rounds report memory = (.ok report', final))
    (hopen : report.reachedFixpoint = false) (hfix : report'.reachedFixpoint = true) :
    ∃ last derived firings, (starts limits rules rounds memory).getLast? = some last ∧
      last.WellFormed ∧ Round limits rules last derived firings final ∧
      final.concepts.size = last.concepts.size ∧ final.relations.size = last.relations.size := by
  induction rounds generalizing report memory with
  | zero =>
    cases h
    rw [hopen] at hfix
    cases hfix
  | succ rounds ih =>
    rw [runRounds] at h
    rw [starts]
    cases hderive : derive limits memory .empty 0 rules with
    | error fault =>
      simp only [hderive] at h
      cases h
    | ok pair =>
      obtain ⟨derived, firings⟩ := pair
      have hgrown := hm.merge derived
      cases hmerge : memory.merge derived with
      | mk grown fault =>
        rw [hmerge] at hgrown
        cases fault with
        | some fault =>
          simp only [hderive, hmerge] at h
          cases h
        | none =>
          simp only [hderive, hmerge] at h ⊢
          by_cases hsame : grown.concepts.size = memory.concepts.size ∧
              grown.relations.size = memory.relations.size
          · rw [if_pos hsame] at h ⊢
            cases h
            exact ⟨memory, derived, firings, rfl, hm, ⟨hderive, hmerge⟩, hsame.1, hsame.2⟩
          · rw [if_neg hsame] at h ⊢
            obtain ⟨last, further, others, hlast, hrest⟩ := ih hgrown h (decide_eq_false hsame)
            refine ⟨last, further, others, ?_, hrest⟩
            rw [List.getLast?_cons, hlast]
            rfl

/-- From a memory that is bare like another one a round leads to what is bare like before. -/
theorem Round.of_bare (h : Round limits rules memory derived firings grown)
    (hb : final.bare = memory.bare) :
    ∃ derived' grown', Round limits rules final derived' firings grown' ∧
      grown'.bare = grown.bare := by
  have hsame : (derive limits final .empty 0 rules).map (fun result => (result.1.bare, result.2)) =
      .ok (derived.bare, firings) := by
    have hfinal := @derive_bare limits final .empty 0 rules
    have hmemory := @derive_bare limits memory .empty 0 rules
    rw [← hfinal, hb, hmemory, h.derive_eq]
    rfl
  obtain ⟨⟨derived', firings'⟩, hderive, heq⟩ := exists_of_map_eq_ok hsame
  obtain ⟨hderived, rfl⟩ := Prod.mk.inj heq
  have hmerge : (final.merge derived').bare = ⟨grown.bare, none⟩ := by
    rw [← Graph.merge_bare, hb, hderived, Graph.merge_bare, h.merge_eq]
    rfl
  obtain ⟨hgraph, hfault⟩ := Edited.mk.inj hmerge
  refine ⟨derived', (final.merge derived').graph, ⟨hderive, ?_⟩, hgraph⟩
  rw [← hfault]

/-- A round that changes no bare memory ends a run, which then has added nothing. -/
theorem runRounds_of_round {rounds : Nat} (h : Round limits rules memory derived firings grown)
    (hb : grown.bare = memory.bare) :
    runRounds limits rules (rounds + 1) {} memory = (.ok ⟨1, firings, 0, 0, true⟩, grown) := by
  have hconcepts : grown.concepts.size = memory.concepts.size := by
    rw [← Dict.size_map Concept.bare grown.concepts, ← Dict.size_map Concept.bare memory.concepts]
    exact congrArg (fun g : Graph => g.concepts.size) hb
  have hrelations : grown.relations.size = memory.relations.size := by
    rw [← Dict.size_map Relation.bare grown.relations, ← Dict.size_map Relation.bare memory.relations]
    exact congrArg (fun g : Graph => g.relations.size) hb
  simp only [runRounds, h.derive_eq, h.merge_eq, hconcepts, hrelations, Nat.sub_self, Nat.zero_add,
    and_self, decide_true, if_true]

/-- A run without fault is made of rounds by its rules. -/
theorem runRounds_of_run {sources : List Graph} {rounds : Nat} {report : Report}
    (hparse : sources.mapM Rule.ofGraph = .ok rules)
    (hrun : run limits sources memory rounds = (.ok report, final)) :
    runRounds limits rules rounds {} memory = (.ok report, final) := by
  unfold run at hrun
  cases hcheck : Limits.checkRounds rounds with
  | error violation =>
    simp only [hcheck] at hrun
    cases hrun
  | ok =>
    simp only [hcheck, hparse] at hrun
    exact hrun

/-- A run that reaches its fixpoint with a last round that leaves the known concepts what they are can be
repeated with any number of rounds: it ends after one, has added nothing, and leaves what there is and
what is said. -/
theorem run_again {sources : List Graph} {rounds again : Nat} {report : Report} (hm : memory.WellFormed)
    (hparse : sources.mapM Rule.ofGraph = .ok rules)
    (hrun : run limits sources memory rounds = (.ok report, final))
    (hfix : report.reachedFixpoint = true)
    (hlast : (starts limits rules rounds memory).getLast? = some last)
    (hknown : final.knownIds = last.knownIds) (hsome : 1 ≤ again) (hmost : again ≤ Limits.rounds) :
    ∃ firings repeated, run limits sources final again = (.ok ⟨1, firings, 0, 0, true⟩, repeated) ∧
      repeated.knownIds = final.knownIds ∧ (∀ id, repeated.hasConcept id = final.hasConcept id) ∧
      ∀ triple, repeated.Says triple ↔ final.Says triple := by
  have hrounds := runRounds_of_run hparse hrun
  obtain ⟨start, derived, firings, hstart, hwell, hround, hconcepts, hrelations⟩ :=
    last_of_runRounds hm hrounds rfl hfix
  rw [hlast] at hstart
  cases hstart
  have hbare : final.bare = last.bare :=
    hwell.bare_merge hround.merge_eq hconcepts hrelations hknown
  obtain ⟨derived', repeated, hround', hrepeated⟩ := hround.of_bare hbare
  obtain ⟨more, rfl⟩ := Nat.exists_eq_add_of_le' hsome
  have hallowed : Limits.checkRounds (more + 1) = .ok () := by
    unfold Limits.checkRounds
    rw [if_neg (by omega)]
  refine ⟨firings, repeated, ?_, ?_, fun id => ?_, fun triple => ?_⟩
  · simp only [run, hallowed, hparse]
    exact runRounds_of_round hround' hrepeated
  · rw [← Graph.knownIds_bare, hrepeated, Graph.knownIds_bare]
  · rw [← Graph.hasConcept_bare, hrepeated, Graph.hasConcept_bare]
  · rw [← Graph.says_bare, hrepeated, Graph.says_bare]

/-- The rule that everything is sound. -/
def soundness : Graph :=
  .ofStatements ["soundness", "?x", "sound"]
    [⟨"?x", "is", "sound"⟩, ⟨"soundness", "has_hypothesis", "?x"⟩,
      ⟨"soundness", "has_conclusion", "?x"⟩, ⟨"soundness", "has_conclusion", "sound"⟩]

/-- The rule taken apart. -/
def soundnessRule : Rule where
  root := "soundness"
  hypothesis := .ofStatements ["?x"] []
  mapping := .empty
  conclusion := .ofStatements ["?x", "sound"] [⟨"?x", "is", "sound"⟩]
  becomes := []

/-- One thing is sound, and what that is may be known or not. -/
def oneSound (sound : Concept) : Graph :=
  ((Graph.empty.addConcepts [.known "oak", sound]).addRelations [.ofTriple ⟨"oak", "is", sound.id⟩]).graph

/-- Both are sound. -/
def bothSound : Graph :=
  .ofStatements ["oak", "sound"] [⟨"oak", "is", "sound"⟩, ⟨"sound", "is", "sound"⟩]

/-- What follows when just the one thing is known. -/
theorem derive_soundness_unknown :
    derive {} (oneSound (.unknown "sound")) .empty 0 [soundnessRule] =
      .ok (oneSound (.known "sound"), 1) := by
  have hh : soundnessRule.hypothesis.WellFormed := Graph.wellFormed_ofStatements _ _
  have hm : (oneSound (.unknown "sound")).WellFormed :=
    (Graph.wellFormed_empty.addConcepts _).addRelations _
  rw [derive, Rule.applyAll_eq hh hm]
  decide +kernel

/-- What follows when both are known. -/
theorem derive_soundness_known :
    derive {} (oneSound (.known "sound")) .empty 0 [soundnessRule] = .ok (bothSound, 2) := by
  have hh : soundnessRule.hypothesis.WellFormed := Graph.wellFormed_ofStatements _ _
  have hm : (oneSound (.known "sound")).WellFormed :=
    (Graph.wellFormed_empty.addConcepts _).addRelations _
  rw [derive, Rule.applyAll_eq hh hm]
  decide +kernel

/-- When both are known and sound nothing new follows. -/
theorem derive_soundness_both :
    derive {} bothSound .empty 0 [soundnessRule] = .ok (bothSound, 2) := by
  have hh : soundnessRule.hypothesis.WellFormed := Graph.wellFormed_ofStatements _ _
  have hm : bothSound.WellFormed := Graph.wellFormed_ofStatements _ _
  rw [derive, Rule.applyAll_eq hh hm]
  decide +kernel

/-- The rule graph is that rule. -/
theorem parse_soundness : [soundness].mapM Rule.ofGraph = .ok [soundnessRule] := by
  decide +kernel

/-- How many concepts and relations the memories have. -/
theorem sizes_soundness :
    (∀ sound ∈ [Concept.known "sound", .unknown "sound"],
      (oneSound sound).concepts.size = 2 ∧ (oneSound sound).relations.size = 1) ∧
      bothSound.concepts.size = 2 ∧ bothSound.relations.size = 2 := by
  decide +kernel

/-- A graph that takes up another one without fault. -/
theorem merge_eq_of_toExcept {g other : Graph} (h : (g.merge other).toExcept = .ok grown) :
    g.merge other = ⟨grown, none⟩ := by
  obtain ⟨hfault, hgraph⟩ := Graph.toExcept_eq_ok.mp h
  rw [← hfault, ← hgraph]

/-- From a memory in which both are known a run comes to its fixpoint in two rounds, and a further run of
five rounds ends after one. -/
theorem run_again_of_soundness :
    run {} [soundness] (oneSound (.known "sound")) 10 = (.ok ⟨2, 4, 0, 1, true⟩, bothSound) ∧
      ∃ firings repeated,
        run {} [soundness] bothSound 5 = (.ok ⟨1, firings, 0, 0, true⟩, repeated) ∧
        repeated.knownIds = bothSound.knownIds := by
  have hm : (oneSound (.known "sound")).WellFormed :=
    (Graph.wellFormed_empty.addConcepts _).addRelations _
  have hadded := merge_eq_of_toExcept
    (show ((oneSound (.known "sound")).merge bothSound).toExcept = .ok bothSound by decide +kernel)
  have hnone := merge_eq_of_toExcept
    (show (bothSound.merge bothSound).toExcept = .ok bothSound by decide +kernel)
  have hrounds : Limits.checkRounds 10 = .ok () := by decide
  obtain ⟨hone, hboth⟩ := sizes_soundness
  have hstart := hone (.known "sound") List.mem_cons_self
  have hrun : run {} [soundness] (oneSound (.known "sound")) 10 =
      (.ok ⟨2, 4, 0, 1, true⟩, bothSound) := by
    simp only [run, parse_soundness, hrounds, runRounds, derive_soundness_known, hadded,
      derive_soundness_both, hnone, hstart, hboth]
    rfl
  have hlast : (starts {} [soundnessRule] 10 (oneSound (.known "sound"))).getLast? =
      some bothSound := by
    simp only [starts, derive_soundness_known, hadded, derive_soundness_both, hnone, hstart, hboth]
    rfl
  obtain ⟨firings, repeated, hagain, hknown, -, -⟩ :=
    @run_again _ _ _ _ _ [soundness] 10 5 _ hm parse_soundness hrun rfl hlast rfl (by decide) (by decide)
  exact ⟨hrun, firings, repeated, hagain, hknown⟩

/-- Where what is sound is unknown at first, the first round makes it known and reports a fixpoint, and a
further round finds that it is sound itself. -/
theorem not_run_again_of_unknown :
    ¬∀ (limits : SearchLimits) (sources : List Graph) (memory final repeated : Graph)
      (rounds again : Nat) (report report' : Report), memory.WellFormed →
      run limits sources memory rounds = (.ok report, final) → report.reachedFixpoint = true →
      1 ≤ again → again ≤ Limits.rounds →
      run limits sources final again = (.ok report', repeated) →
      report'.addedConcepts = 0 ∧ report'.addedRelations = 0 := by
  intro hall
  have hm : (oneSound (.unknown "sound")).WellFormed :=
    (Graph.wellFormed_empty.addConcepts _).addRelations _
  have hknown := merge_eq_of_toExcept
    (show ((oneSound (.unknown "sound")).merge (oneSound (.known "sound"))).toExcept =
      .ok (oneSound (.known "sound")) by decide +kernel)
  have hadded := merge_eq_of_toExcept
    (show ((oneSound (.known "sound")).merge bothSound).toExcept = .ok bothSound by decide +kernel)
  have hrounds : Limits.checkRounds 1 = .ok () := by decide
  obtain ⟨hone, hboth⟩ := sizes_soundness
  have hunsure := hone (.unknown "sound") (List.mem_cons_of_mem _ List.mem_cons_self)
  have hsure := hone (.known "sound") List.mem_cons_self
  have hrun : run {} [soundness] (oneSound (.unknown "sound")) 1 =
      (.ok ⟨1, 1, 0, 0, true⟩, oneSound (.known "sound")) := by
    simp only [run, parse_soundness, hrounds, runRounds, derive_soundness_unknown, hknown, hunsure,
      hsure]
    rfl
  have hagain : run {} [soundness] (oneSound (.known "sound")) 1 =
      (.ok ⟨1, 2, 0, 1, false⟩, bothSound) := by
    simp only [run, parse_soundness, hrounds, runRounds, derive_soundness_known, hadded, hsure,
      hboth]
    rfl
  obtain ⟨-, hnone⟩ := hall {} [soundness] _ _ _ 1 1 _ _ hm hrun rfl (by decide) (by decide) hagain
  cases hnone

end KnowledgeGraph.Chaining
