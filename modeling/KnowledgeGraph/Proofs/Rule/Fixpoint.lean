import KnowledgeGraph.Proofs.Rule.Consequences

/-!
# The least fixpoint of chaining

A round adds what follows from the memory it starts from, so that rounds stay within every memory that
contains the first one and is closed under the rules. A round that adds nothing starts from a closed
memory. Main statement: a run that reaches its fixpoint, and in which no search came to its result
limit, ends with the least memory that contains the first one and is closed under the rules.
-/

namespace KnowledgeGraph.Chaining

variable {limits : SearchLimits} {rules : List Rule} {memory derived derived' grown bound final : Graph}
  {firings firings' : Nat}

/-- Graphs of the shape of notation merged into one of that shape give the least one of that shape that
contains them. -/
theorem mergeAll_least {others : List Graph} (hd : derived.NotationShaped)
    (ho : ∀ other ∈ others, other.NotationShaped) (h : mergeAll derived others = .ok derived') :
    derived'.NotationShaped ∧ derived.Within derived' ∧ (∀ other ∈ others, other.Within derived') ∧
      ∀ bound, derived.Within bound → (∀ other ∈ others, other.Within bound) →
        derived'.Within bound := by
  induction others generalizing derived with
  | nil =>
    cases h
    exact ⟨hd, .refl _, nofun, fun _ hb _ => hb⟩
  | cons other rest ih =>
    rw [mergeAll] at h
    obtain ⟨next, hm, h⟩ := exists_of_bind_eq_ok h
    have hother := ho other List.mem_cons_self
    have heq := (Graph.toExcept_eq_ok.mp hm).2
    have hnext : next.NotationShaped := heq ▸ hd.merge hother
    have hleft : derived.Within next := heq ▸ Graph.Within.merge_left derived other
    have hright : other.Within next := .merge_right hother.toWellFormed hm
    obtain ⟨hshaped, hwithin, hall, hleast⟩ :=
      ih hnext (fun further hf => ho further (List.mem_cons_of_mem _ hf)) h
    refine ⟨hshaped, hleft.trans hwithin, ?_, ?_⟩
    · intro further hf
      rcases List.mem_cons.mp hf with rfl | hf
      · exact hright.trans hwithin
      · exact hall further hf
    · intro bound hb hothers
      have hnextBound : next.Within bound :=
        heq ▸ Graph.Within.merge hother.toWellFormed hb (hothers other List.mem_cons_self)
      exact hleast bound hnextBound fun further hf => hothers further (List.mem_cons_of_mem _ hf)

/-- What a round derives is the least graph of the shape of notation that contains what the rules lead
to. -/
theorem derive_least (hr : ∀ rule ∈ rules, rule.NotationShaped) (hm : memory.NotationShaped)
    (hd : derived.NotationShaped)
    (h : derive limits memory derived firings rules = .ok (derived', firings')) :
    derived'.NotationShaped ∧ derived.Within derived' ∧
      (∀ rule ∈ rules, ∃ conclusions, rule.applyAll limits memory = .ok conclusions ∧
        ∀ conclusion ∈ conclusions, conclusion.Within derived') ∧
      ∀ bound, derived.Within bound →
        (∀ rule ∈ rules, ∀ binding conclusion, Matching.Embeds rule.hypothesis memory binding →
          rule.conclude memory binding = .ok conclusion → conclusion.Within bound) →
        derived'.Within bound := by
  induction rules generalizing derived firings with
  | nil =>
    cases h
    exact ⟨hd, .refl _, nofun, fun _ hb _ => hb⟩
  | cons rule rest ih =>
    rw [derive] at h
    obtain ⟨conclusions, ha, h⟩ := exists_of_bind_eq_ok h
    obtain ⟨next, hmerge, h⟩ := exists_of_bind_eq_ok h
    have hrule := hr rule List.mem_cons_self
    have hembeds := fun conclusion hc => @Rule.embeds_of_applyAll rule memory conclusion limits
      conclusions hrule.hypothesis.toWellFormed hm.toWellFormed ha hc
    have hshaped : ∀ conclusion ∈ conclusions, conclusion.NotationShaped := by
      intro conclusion hc
      obtain ⟨binding, hb, hconclude⟩ := hembeds conclusion hc
      exact Rule.conclude_shaped hrule hm hb hconclude
    obtain ⟨hnext, hleft, hall, hleast⟩ := mergeAll_least hd hshaped hmerge
    obtain ⟨hshaped', hwithin, hrules, hleast'⟩ :=
      ih (fun other ho => hr other (List.mem_cons_of_mem _ ho)) hnext h
    refine ⟨hshaped', hleft.trans hwithin, ?_, ?_⟩
    · intro other ho
      rcases List.mem_cons.mp ho with rfl | ho
      · exact ⟨conclusions, ha, fun conclusion hc => (hall conclusion hc).trans hwithin⟩
      · exact hrules other ho
    · intro bound hb hfollows
      refine hleast' bound (hleast bound hb ?_) fun other ho =>
        hfollows other (List.mem_cons_of_mem _ ho)
      intro conclusion hc
      obtain ⟨binding, he, hconclude⟩ := hembeds conclusion hc
      exact hfollows rule List.mem_cons_self binding conclusion he hconclude

/-- The memories that the rounds of a run start from. -/
def starts (limits : SearchLimits) (rules : List Rule) : Nat → Graph → List Graph
  | 0, _ => []
  | rounds + 1, memory =>
    memory ::
      match derive limits memory .empty 0 rules with
      | .error _ => []
      | .ok (derived, _) =>
        match memory.merge derived with
        | ⟨_, some _⟩ => []
        | ⟨grown, none⟩ =>
          if grown.concepts.size = memory.concepts.size ∧
            grown.relations.size = memory.relations.size then []
          else starts limits rules rounds grown

/-- Whether no search for a rule's hypothesis in a memory comes to the result limit. -/
def exhaustsAll (limits : SearchLimits) (rules : List Rule) (memory : Graph) : Bool :=
  rules.all fun rule =>
    match Matching.findBindings limits rule.hypothesis memory with
    | .ok found => found.length != limits.maxResults
    | .error _ => true

/-- Whether no search in a run comes to the result limit. -/
def exhaustive (limits : SearchLimits) (rules : List Graph) (memory : Graph) (maxRounds : Nat) : Bool :=
  match rules.mapM Rule.ofGraph with
  | .ok rules => (starts limits rules maxRounds memory).all (exhaustsAll limits rules)
  | .error _ => true

/-- A search that does not come to the result limit finds another number of bindings. -/
theorem length_ne_of_exhaustsAll {rule : Rule} {found : List Binding}
    (h : exhaustsAll limits rules memory = true) (hr : rule ∈ rules)
    (hf : Matching.findBindings limits rule.hypothesis memory = .ok found) :
    found.length ≠ limits.maxResults := by
  have hrule := List.all_eq_true.mp h rule hr
  rw [hf] at hrule
  exact bne_iff_ne.mp hrule

/-- A graph bounds rules when it contains all that they conclude from a memory within it. -/
def Bounds (rules : List Rule) (bound : Graph) : Prop :=
  ∀ start : Graph, start.NotationShaped → start.Within bound → ∀ rule ∈ rules,
    ∀ binding conclusion, Matching.Embeds rule.hypothesis start binding →
      rule.conclude start binding = .ok conclusion → conclusion.Within bound

/-- A memory grows to a final one that contains what the rules lead to from it, and stays within what
bounds the rules. -/
structure Saturates (rules : List Rule) (memory final : Graph) : Prop where
  /-- The final memory has the shape of notation. -/
  shaped : final.NotationShaped
  /-- It contains the first one. -/
  within : memory.Within final
  /-- It contains what the rules lead to from it. -/
  closed : ∀ rule ∈ rules, ∃ conclusions, rule.consequences final = .ok conclusions ∧
    ∀ conclusion ∈ conclusions, conclusion.Within final
  /-- It is contained in every graph that contains the first one and bounds the rules. -/
  least : ∀ bound : Graph, bound.NotationShaped → memory.Within bound → Bounds rules bound →
    final.Within bound

/-- A memory that contains what is derived from it is final when no search came to its limit. -/
theorem Saturates.of_settled (hr : ∀ rule ∈ rules, rule.NotationShaped) (hm : memory.NotationShaped)
    (hderive : derive limits memory .empty 0 rules = .ok (derived, firings))
    (hall : exhaustsAll limits rules memory = true) (hd : derived.Within memory) :
    Saturates rules memory memory where
  shaped := hm
  within := .refl memory
  closed := by
    intro rule hrule
    obtain ⟨-, -, hleads, -⟩ := derive_least hr hm Graph.NotationShaped.empty hderive
    obtain ⟨conclusions, ha, hwithin⟩ := hleads rule hrule
    have hhypothesis := (hr rule hrule).hypothesis.toWellFormed
    refine ⟨conclusions, ?_, fun conclusion hc => (hwithin conclusion hc).trans hd⟩
    refine Rule.consequences_of_applyAll hhypothesis hm.toWellFormed ha ?_
    exact fun found hf => length_ne_of_exhaustsAll hall hrule hf
  least _ _ hb _ := hb

/-- A memory grows to what it grows to after a round. -/
theorem Saturates.of_round (hr : ∀ rule ∈ rules, rule.NotationShaped) (hm : memory.NotationShaped)
    (hderive : derive limits memory .empty 0 rules = .ok (derived, firings))
    (hmerge : memory.merge derived = ⟨grown, none⟩) (h : Saturates rules grown final) :
    Saturates rules memory final := by
  obtain ⟨hshaped, -, -, hleast⟩ := derive_least hr hm Graph.NotationShaped.empty hderive
  have hleft := Graph.Within.merge_left memory derived
  rw [hmerge] at hleft
  refine ⟨h.shaped, hleft.trans h.within, h.closed, ?_⟩
  intro bound hb hmb hbounds
  have hderivedBound : derived.Within bound := hleast bound (.empty bound) (hbounds memory hm hmb)
  have hgrownBound := Graph.Within.merge hshaped.toWellFormed hmb hderivedBound
  rw [hmerge] at hgrownBound
  exact h.least bound hb hgrownBound hbounds

/-- Rounds that end with a fixpoint, and in which no search comes to the result limit, saturate the
memory. -/
theorem runRounds_saturates {rounds : Nat} {report report' : Report}
    (hr : ∀ rule ∈ rules, rule.NotationShaped) (hm : memory.NotationShaped)
    (h : runRounds limits rules rounds report memory = (.ok report', final))
    (hopen : report.reachedFixpoint = false) (hfix : report'.reachedFixpoint = true)
    (hall : ∀ start ∈ starts limits rules rounds memory, exhaustsAll limits rules start = true) :
    Saturates rules memory final := by
  induction rounds generalizing report memory with
  | zero =>
    cases h
    rw [hopen] at hfix
    cases hfix
  | succ rounds ih =>
    rw [runRounds] at h
    rw [starts] at hall
    have hfirst := hall memory List.mem_cons_self
    cases hderive : derive limits memory .empty 0 rules with
    | error fault =>
      simp only [hderive] at h
      cases h
    | ok pair =>
      obtain ⟨derived, firings⟩ := pair
      have hshaped := (derive_least hr hm Graph.NotationShaped.empty hderive).1
      have hgrown := hm.merge hshaped
      have hleft := Graph.Within.merge_left memory derived
      have hright := fun next => @Graph.Within.merge_right memory next derived hshaped.toWellFormed
      cases hmerge : memory.merge derived with
      | mk grown fault =>
        rw [hmerge] at hgrown hleft hright
        cases fault with
        | some fault =>
          simp only [hderive, hmerge] at h
          cases h
        | none =>
          simp only [hderive, hmerge] at h hall
          by_cases hsame : grown.concepts.size = memory.concepts.size ∧
              grown.relations.size = memory.relations.size
          · rw [if_pos hsame] at h
            cases h
            -- Nothing was added, so that the round started from the memory it ends with.
            have heq : final = memory := hleft.eq_of_size hm hgrown hsame.1 hsame.2
            have hderived : derived.Within final := hright final rfl
            subst heq
            exact .of_settled hr hm hderive hfirst hderived
          · rw [if_neg hsame] at h hall
            have hopen' : decide (grown.concepts.size = memory.concepts.size ∧
                grown.relations.size = memory.relations.size) = false := decide_eq_false hsame
            have hrest := ih hgrown h hopen' fun start hs => hall start (List.mem_cons_of_mem _ hs)
            exact .of_round hr hm hderive hmerge hrest

/-- A run over a memory and rules of the shape of notation that reaches its fixpoint, and in which no
search comes to the result limit, ends with the least memory of that shape that contains the first one
and is closed under the rules. -/
theorem run_least_fixpoint {rules : List Graph} {maxRounds : Nat} {report : Report}
    (hr : ∀ g ∈ rules, g.NotationShaped) (hm : memory.NotationShaped)
    (hrun : run limits rules memory maxRounds = (.ok report, final))
    (hfix : report.reachedFixpoint = true)
    (hall : exhaustive limits rules memory maxRounds = true) :
    memory.Within final ∧ (∀ g ∈ rules, Rule.Closes g final) ∧
      ∀ bound : Graph, bound.NotationShaped → memory.Within bound →
        (∀ g ∈ rules, Rule.Closes g bound) → final.Within bound := by
  unfold run at hrun
  unfold exhaustive at hall
  cases hcheck : Limits.checkRounds maxRounds with
  | error violation =>
    simp only [hcheck] at hrun
    cases hrun
  | ok =>
    cases hparse : rules.mapM Rule.ofGraph with
    | error fault =>
      simp only [hcheck, hparse] at hrun
      cases hrun
    | ok parsed =>
      simp only [hcheck, hparse] at hrun hall
      obtain ⟨hof, hto⟩ := mem_of_mapM_eq_ok hparse
      have hshaped : ∀ rule ∈ parsed, rule.NotationShaped := by
        intro rule hrule
        obtain ⟨g, hg, he⟩ := hof rule hrule
        exact Rule.ofGraph_shaped (hr g hg) he
      obtain ⟨hfinal, hwithin, hclosed, hleast⟩ :=
        runRounds_saturates hshaped hm hrun rfl hfix (List.all_eq_true.mp hall)
      refine ⟨hwithin, ?_, ?_⟩
      · intro g hg
        obtain ⟨rule, hrule, he⟩ := hto g hg
        obtain ⟨conclusions, hc, hin⟩ := hclosed rule hrule
        have hh := (hshaped rule hrule).hypothesis.toWellFormed
        exact ⟨rule, conclusions, he, (Rule.leadsTo_iff hh hfinal.toWellFormed).mpr hc, hin⟩
      · intro bound hb hmb hcloses
        refine hleast bound hb hmb ?_
        intro start hs hsb rule hrule binding conclusion he hconclude
        obtain ⟨g, hg, hparsed⟩ := hof rule hrule
        exact Rule.within_of_closes (hshaped rule hrule) hs hb hsb hparsed (hcloses g hg) he hconclude

/-- The rule that an ancestor's ancestor is an ancestor. -/
def ancestry : Graph :=
  .ofStatements ["ancestry", "?a", "?b", "?c", "?p", "?q"]
    [⟨"?a", "ancestor", "?b"⟩, ⟨"?b", "ancestor", "?c"⟩, ⟨"?p", "ancestor", "?q"⟩,
      ⟨"ancestry", "has_hypothesis", "?a"⟩, ⟨"ancestry", "has_hypothesis", "?b"⟩,
      ⟨"ancestry", "has_hypothesis", "?c"⟩, ⟨"ancestry", "has_mapping", "?p"⟩,
      ⟨"ancestry", "has_mapping", "?q"⟩, ⟨"ancestry", "has_conclusion", "?p"⟩,
      ⟨"ancestry", "has_conclusion", "?q"⟩, ⟨"?a", "becomes", "?p"⟩, ⟨"?c", "becomes", "?q"⟩]

/-- The rule taken apart. -/
def ancestryRule : Rule where
  root := "ancestry"
  hypothesis := .ofStatements ["?a", "?b", "?c"] [⟨"?a", "ancestor", "?b"⟩, ⟨"?b", "ancestor", "?c"⟩]
  mapping := .ofStatements ["?p", "?q"] [⟨"?p", "ancestor", "?q"⟩]
  conclusion := .ofStatements ["?p", "?q"] [⟨"?p", "ancestor", "?q"⟩]
  becomes := [("?a", "?p"), ("?c", "?q")]

/-- Three generations. -/
def family : Graph :=
  .ofStatements ["x", "y", "z"] [⟨"x", "ancestor", "y"⟩, ⟨"y", "ancestor", "z"⟩]

/-- What follows for the first and the third generation. -/
def grandparent : Graph := .ofStatements ["x", "z"] [⟨"x", "ancestor", "z"⟩]

/-- Three generations with all ancestors. -/
def lineage : Graph :=
  .ofStatements ["x", "y", "z"]
    [⟨"x", "ancestor", "y"⟩, ⟨"y", "ancestor", "z"⟩, ⟨"x", "ancestor", "z"⟩]

/-- Chaining the rule over three generations adds one relation in a first round and none in a second, and
ends with the least family in which an ancestor's ancestor is an ancestor. -/
theorem run_least_fixpoint_of_ancestry :
    run {} [ancestry] family 10 = (.ok ⟨2, 2, 0, 1, true⟩, lineage) ∧
      exhaustive {} [ancestry] family 10 = true ∧
      family.Within lineage ∧ (∀ g ∈ [ancestry], Rule.Closes g lineage) ∧
      ∀ bound : Graph, bound.NotationShaped → family.Within bound →
        (∀ g ∈ [ancestry], Rule.Closes g bound) → lineage.Within bound := by
  have hparse : [ancestry].mapM Rule.ofGraph = .ok [ancestryRule] := by decide +kernel
  have hh : ancestryRule.hypothesis.WellFormed := Graph.wellFormed_ofStatements _ _
  have hfamily : family.WellFormed := Graph.wellFormed_ofStatements _ _
  have hlineage : lineage.WellFormed := Graph.wellFormed_ofStatements _ _
  have hfirst : derive {} family .empty 0 [ancestryRule] = .ok (grandparent, 1) := by
    rw [derive, Rule.applyAll_eq hh hfamily]
    decide +kernel
  have hsecond : derive {} lineage .empty 0 [ancestryRule] = .ok (grandparent, 1) := by
    rw [derive, Rule.applyAll_eq hh hlineage]
    decide +kernel
  have hmerge : ∀ g : Graph, (g.merge grandparent).toExcept = .ok lineage →
      g.merge grandparent = ⟨lineage, none⟩ := by
    intro g h
    obtain ⟨hfault, hgraph⟩ := Graph.toExcept_eq_ok.mp h
    rw [← hfault, ← hgraph]
  have hadded := hmerge family (by decide +kernel)
  have hnone := hmerge lineage (by decide +kernel)
  have hconcepts : lineage.concepts.size = 3 ∧ family.concepts.size = 3 := by decide +kernel
  have hrelations : lineage.relations.size = 3 ∧ family.relations.size = 2 := by decide +kernel
  have hrounds : Limits.checkRounds 10 = .ok () := by decide
  have hrun : run {} [ancestry] family 10 = (.ok ⟨2, 2, 0, 1, true⟩, lineage) := by
    simp only [run, hparse, hrounds, runRounds, hfirst, hadded, hsecond, hnone, hconcepts, hrelations]
    rfl
  have hall : exhaustive {} [ancestry] family 10 = true := by
    simp only [exhaustive, hparse, starts, hfirst, hadded, hsecond, hnone, hconcepts, hrelations]
    decide +kernel
  have hrules : ∀ g ∈ [ancestry], g.NotationShaped := by
    intro g hg
    rw [List.mem_singleton.mp hg]
    exact .ofStatements _ _
  exact ⟨hrun, hall, run_least_fixpoint hrules (.ofStatements _ _) hrun rfl hall⟩

end KnowledgeGraph.Chaining
