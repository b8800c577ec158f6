import KnowledgeGraph.Proofs.Graph.Extension
import KnowledgeGraph.Proofs.Rule.Rerun

/-!
# The growth of a memory

Chaining extends the memory that it starts from, round by round: every concept stays and every relation
stays with what it says, also where a round fails. Main statement: a run that succeeds is made of rounds
which its report counts, with the concepts and relations that they add, and it reports a fixpoint just
when the last of them added none.
-/

namespace KnowledgeGraph.Chaining

variable {limits : SearchLimits} {rules : List Rule} {memory start grown final : Graph}

/-- Rounds extend the memory that they start from and keep it well-formed, also where one fails. -/
theorem runRounds_extends {rounds : Nat} {report : Report} (hm : memory.WellFormed) :
    memory.ExtendedBy (runRounds limits rules rounds report memory).2 ∧
      (runRounds limits rules rounds report memory).2.WellFormed := by
  induction rounds generalizing report memory with
  | zero => exact ⟨.refl memory, hm⟩
  | succ rounds ih =>
    rw [runRounds]
    cases derive limits memory .empty 0 rules with
    | error fault => exact ⟨.refl memory, hm⟩
    | ok pair =>
      obtain ⟨derived, firings⟩ := pair
      have hextends := Graph.ExtendedBy.merge memory derived
      have hgrown := hm.merge derived
      cases hmerge : memory.merge derived with
      | mk grown fault =>
        rw [hmerge] at hextends hgrown
        cases fault with
        | some fault =>
          simp only [hmerge]
          exact ⟨hextends, hgrown⟩
        | none =>
          simp only [hmerge]
          split
          next => exact ⟨hextends, hgrown⟩
          next =>
            obtain ⟨hmore, hfinal⟩ := @ih grown _ hgrown
            exact ⟨hextends.trans hmore, hfinal⟩

/-- A run extends the memory that it starts from and keeps it well-formed, also where it fails. -/
theorem run_extends {sources : List Graph} {maxRounds : Nat} (hm : memory.WellFormed) :
    memory.ExtendedBy (run limits sources memory maxRounds).2 ∧
      (run limits sources memory maxRounds).2.WellFormed := by
  unfold run
  cases Limits.checkRounds maxRounds with
  | error violation => exact ⟨.refl memory, hm⟩
  | ok =>
    cases sources.mapM Rule.ofGraph with
    | error fault => exact ⟨.refl memory, hm⟩
    | ok rules => exact runRounds_extends hm

/-- A graph has no concept and no relation with an id that is new. -/
structure AddsNothing (start grown : Graph) : Prop where
  /-- The concepts have ids of the first graph. -/
  concepts : ∀ id, grown.concepts.contains id = true → start.concepts.contains id = true
  /-- So do the relations. -/
  relations : ∀ id, grown.relations.contains id = true → start.relations.contains id = true

/-- An extension has no fewer concepts and relations. -/
theorem sizes_le (h : start.ExtendedBy grown) : start.concepts.size ≤ grown.concepts.size ∧
    start.relations.size ≤ grown.relations.size :=
  ⟨Dict.size_le_of_contains h.contains_concept, Dict.size_le_of_contains h.contains_relation⟩

/-- An extension adds nothing just when it has as many concepts and as many relations. -/
theorem addsNothing_iff (h : start.ExtendedBy grown) : AddsNothing start grown ↔
    grown.concepts.size = start.concepts.size ∧ grown.relations.size = start.relations.size := by
  obtain ⟨hconcepts, hrelations⟩ := sizes_le h
  constructor
  · intro hnothing
    exact ⟨Nat.le_antisymm (Dict.size_le_of_contains hnothing.concepts) hconcepts,
      Nat.le_antisymm (Dict.size_le_of_contains hnothing.relations) hrelations⟩
  · rintro ⟨hc, hr⟩
    exact ⟨fun _ => Dict.contains_of_size_eq h.contains_concept hc,
      fun _ => Dict.contains_of_size_eq h.contains_relation hr⟩

/-- A round extends the memory before it. -/
theorem Round.extendedBy {derived : Graph} {firings : Nat}
    (h : Round limits rules start derived firings grown) : start.ExtendedBy grown := by
  have hextends := Graph.ExtendedBy.merge start derived
  rwa [h.merge_eq] at hextends

/-- Rounds that follow one another, each with the memory before it and the one after it, and how many
matches they conclude from in all. -/
inductive Rounds (limits : SearchLimits) (rules : List Rule) :
    Graph → List (Graph × Graph) → Nat → Graph → Prop where
  /-- No round is run. -/
  | none (memory : Graph) : Rounds limits rules memory [] 0 memory
  /-- A round is run and others after it. -/
  | next {memory derived grown final : Graph} {firings others : Nat} {rest : List (Graph × Graph)}
    (first : Round limits rules memory derived firings grown)
    (later : Rounds limits rules grown rest others final) :
    Rounds limits rules memory ((memory, grown) :: rest) (firings + others) final

/-- Every round extends the memory before it. -/
theorem Rounds.extendedBy {rounds : List (Graph × Graph)} {firings : Nat}
    (h : Rounds limits rules memory rounds firings final) :
    ∀ round ∈ rounds, round.1.ExtendedBy round.2 := by
  induction h with
  | none => nofun
  | next first later ih => exact List.forall_mem_cons.mpr ⟨first.extendedBy, ih⟩

/-- A report onto which a round is counted. -/
def Report.count (report : Report) (firings : Nat) (start grown : Graph) : Report where
  rounds := report.rounds + 1
  firings := report.firings + firings
  addedConcepts := report.addedConcepts + (grown.concepts.size - start.concepts.size)
  addedRelations := report.addedRelations + (grown.relations.size - start.relations.size)
  reachedFixpoint := decide
    (grown.concepts.size = start.concepts.size ∧ grown.relations.size = start.relations.size)

/-- A round that extends the memory is counted with the concepts and relations by which it grows. -/
theorem Report.count_added (report : Report) (firings : Nat) (h : start.ExtendedBy grown) :
    start.concepts.size + (report.count firings start grown).addedConcepts =
      report.addedConcepts + grown.concepts.size ∧
    start.relations.size + (report.count firings start grown).addedRelations =
      report.addedRelations + grown.relations.size := by
  obtain ⟨hconcepts, hrelations⟩ := sizes_le h
  constructor
  · change start.concepts.size + (report.addedConcepts + (grown.concepts.size - start.concepts.size)) = _
    omega
  · change start.relations.size +
      (report.addedRelations + (grown.relations.size - start.relations.size)) = _
    omega

/-- A run goes on from a round that adds something and ends with one that does not. -/
theorem runRounds_succ {derived : Graph} {firings most : Nat} {report : Report}
    (h : Round limits rules memory derived firings grown) :
    runRounds limits rules (most + 1) report memory =
      if grown.concepts.size = memory.concepts.size ∧ grown.relations.size = memory.relations.size then
        (.ok (report.count firings memory grown), grown)
      else runRounds limits rules most (report.count firings memory grown) grown := by
  simp only [runRounds, h.derive_eq, h.merge_eq]
  rfl

/-- A run without fault starts with a round, unless none is allowed. -/
theorem round_of_runRounds {most : Nat} {report report' : Report}
    (h : runRounds limits rules (most + 1) report memory = (.ok report', final)) :
    ∃ derived firings grown, Round limits rules memory derived firings grown := by
  rw [runRounds] at h
  cases hderive : derive limits memory .empty 0 rules with
  | error fault =>
    simp only [hderive] at h
    cases h
  | ok pair =>
    obtain ⟨derived, firings⟩ := pair
    cases hmerge : memory.merge derived with
    | mk grown fault =>
      cases fault with
      | some fault =>
        simp only [hderive, hmerge] at h
        cases h
      | none => exact ⟨derived, firings, grown, hderive, hmerge⟩

/-- A report counts rounds, and what they conclude and add, onto what another report has counted. -/
structure Accounts (most : Nat) (memory : Graph) (rounds : List (Graph × Graph)) (firings : Nat)
    (final : Graph) (before after : Report) : Prop where
  /-- The rounds are counted. -/
  rounds_eq : after.rounds = before.rounds + rounds.length
  /-- The matches are counted. -/
  firings_eq : after.firings = before.firings + firings
  /-- The concepts that are added are counted. -/
  concepts_eq : memory.concepts.size + after.addedConcepts = before.addedConcepts + final.concepts.size
  /-- The relations that are added are counted. -/
  relations_eq :
    memory.relations.size + after.addedRelations = before.addedRelations + final.relations.size
  /-- No more rounds are run than allowed. -/
  rounds_le : rounds.length ≤ most
  /-- The fixpoint is reached if the last round adds nothing. -/
  fixpoint_iff : after.reachedFixpoint = true ↔
    ∃ last, rounds.getLast? = some last ∧ AddsNothing last.1 last.2
  /-- If it is not reached all rounds are run, and each adds something. -/
  all_of_open : after.reachedFixpoint = false →
    rounds.length = most ∧ ∀ round ∈ rounds, ¬AddsNothing round.1 round.2

namespace Accounts

variable {most firings others : Nat} {rest : List (Graph × Graph)} {report report' : Report}

/-- No round is accounted for by the same report. -/
theorem none (memory : Graph) (hopen : report.reachedFixpoint = false) :
    Accounts 0 memory [] 0 memory report report where
  rounds_eq := rfl
  firings_eq := rfl
  concepts_eq := Nat.add_comm _ _
  relations_eq := Nat.add_comm _ _
  rounds_le := Nat.le_refl 0
  fixpoint_iff := by
    rw [hopen]
    exact ⟨nofun, fun ⟨_, hlast, _⟩ => nomatch hlast⟩
  all_of_open _ := ⟨rfl, nofun⟩

/-- A round that adds nothing is accounted for when it is counted. -/
theorem last (h : memory.ExtendedBy grown) (hsame : AddsNothing memory grown) :
    Accounts (most + 1) memory [(memory, grown)] firings grown report
      (report.count firings memory grown) := by
  obtain ⟨hconcepts, hrelations⟩ := report.count_added firings h
  have hfix : (report.count firings memory grown).reachedFixpoint = true :=
    decide_eq_true ((addsNothing_iff h).mp hsame)
  refine ⟨rfl, rfl, hconcepts, hrelations, Nat.succ_le_succ (Nat.zero_le most), ?_, fun hopen => ?_⟩
  · exact ⟨fun _ => ⟨_, rfl, hsame⟩, fun _ => hfix⟩
  · rw [hfix] at hopen
    cases hopen

/-- A round that adds something is accounted for with those after it. -/
theorem cons (h : memory.ExtendedBy grown) (hsome : ¬AddsNothing memory grown)
    (hrest : Accounts most grown rest others final (report.count firings memory grown) report') :
    Accounts (most + 1) memory ((memory, grown) :: rest) (firings + others) final report report' := by
  obtain ⟨hconcepts, hrelations⟩ := report.count_added firings h
  have hmore := hrest.concepts_eq
  have hmore' := hrest.relations_eq
  refine ⟨?_, ?_, by omega, by omega, Nat.succ_le_succ hrest.rounds_le, ?_, fun hopen => ?_⟩
  · have hrounds : (report.count firings memory grown).rounds = report.rounds + 1 := rfl
    rw [hrest.rounds_eq, hrounds, List.length_cons, Nat.add_assoc, Nat.add_comm 1]
  · have hfirings : (report.count firings memory grown).firings = report.firings + firings := rfl
    rw [hrest.firings_eq, hfirings, Nat.add_assoc]
  · rw [hrest.fixpoint_iff, List.getLast?_cons]
    cases rest.getLast? with
    | none =>
      constructor
      · rintro ⟨last, hlast, -⟩
        cases hlast
      · rintro ⟨last, hlast, hnothing⟩
        cases hlast
        exact absurd hnothing hsome
    | some last => exact Iff.rfl
  · obtain ⟨hall, hadds⟩ := hrest.all_of_open hopen
    exact ⟨congrArg Nat.succ hall, List.forall_mem_cons.mpr ⟨hsome, hadds⟩⟩

end Accounts

/-- Rounds without fault are accounted for by the report. -/
theorem accounts_of_runRounds {most : Nat} {report report' : Report}
    (h : runRounds limits rules most report memory = (.ok report', final))
    (hopen : report.reachedFixpoint = false) :
    ∃ rounds firings, Rounds limits rules memory rounds firings final ∧
      Accounts most memory rounds firings final report report' := by
  induction most generalizing report memory with
  | zero =>
    cases h
    exact ⟨[], 0, .none _, .none _ hopen⟩
  | succ most ih =>
    obtain ⟨derived, firings, grown, hround⟩ := round_of_runRounds h
    have hnothing := addsNothing_iff hround.extendedBy
    rw [runRounds_succ hround] at h
    by_cases hsame : AddsNothing memory grown
    · rw [if_pos (hnothing.mp hsame)] at h
      cases h
      exact ⟨_, firings + 0, .next hround (.none _), .last hround.extendedBy hsame⟩
    · rw [if_neg fun hsizes => hsame (hnothing.mpr hsizes)] at h
      have hstill : (report.count firings memory grown).reachedFixpoint = false :=
        decide_eq_false fun hsizes => hsame (hnothing.mpr hsizes)
      obtain ⟨rest, others, hrest, haccounts⟩ := ih h hstill
      exact ⟨_, _, .next hround hrest, haccounts.cons hround.extendedBy hsame⟩

/-- The rules of a run without fault can be taken apart. -/
theorem exists_rules_of_run {sources : List Graph} {maxRounds : Nat} {report : Report}
    (h : run limits sources memory maxRounds = (.ok report, final)) :
    ∃ rules, sources.mapM Rule.ofGraph = .ok rules := by
  unfold run at h
  cases hcheck : Limits.checkRounds maxRounds with
  | error violation =>
    simp only [hcheck] at h
    cases h
  | ok =>
    cases hparse : sources.mapM Rule.ofGraph with
    | error fault =>
      simp only [hcheck, hparse] at h
      cases h
    | ok rules => exact ⟨rules, rfl⟩

/-- Whatever a run comes to, the memory keeps its concepts, and under each id what the relation says, and
stays well-formed. A run that succeeds is made of rounds, which may not be more than allowed; its report
tells how many they are and from how many matches they conclude, and by how many concepts and relations
the memory has grown, of which no round makes fewer. It reports a fixpoint just when a last round adds
nothing; where it does not, as many rounds are run as allowed, and each adds something. -/
theorem run_grows {sources : List Graph} {maxRounds : Nat} {outcome : Except Fault Report}
    (hm : memory.WellFormed) (h : run limits sources memory maxRounds = (outcome, final)) :
    (∀ id, memory.hasConcept id = true → final.hasConcept id = true) ∧
    (∀ id triple, memory.SaysUnder id triple → final.SaysUnder id triple) ∧
    final.WellFormed ∧
    ∀ report, outcome = .ok report →
      ∃ rules rounds, sources.mapM Rule.ofGraph = .ok rules ∧
        Rounds limits rules memory rounds report.firings final ∧
        rounds.length = report.rounds ∧ report.rounds ≤ maxRounds ∧
        (∀ round ∈ rounds, round.1.concepts.size ≤ round.2.concepts.size ∧
          round.1.relations.size ≤ round.2.relations.size) ∧
        memory.concepts.size + report.addedConcepts = final.concepts.size ∧
        memory.relations.size + report.addedRelations = final.relations.size ∧
        (report.reachedFixpoint = true ↔
          ∃ last, rounds.getLast? = some last ∧ AddsNothing last.1 last.2) ∧
        (report.reachedFixpoint = false → report.rounds = maxRounds ∧
          ∀ round ∈ rounds, ¬AddsNothing round.1 round.2) := by
  obtain ⟨hextends, hwell⟩ := @run_extends limits memory sources maxRounds hm
  rw [h] at hextends hwell
  refine ⟨hextends.contains_concept, hextends.keptBy, hwell, ?_⟩
  rintro report rfl
  obtain ⟨rules, hparse⟩ := exists_rules_of_run h
  obtain ⟨rounds, firings, hrounds, haccounts⟩ :=
    accounts_of_runRounds (runRounds_of_run hparse h) rfl
  have hlength : report.rounds = rounds.length := haccounts.rounds_eq.trans (Nat.zero_add _)
  have hfirings : report.firings = firings := haccounts.firings_eq.trans (Nat.zero_add _)
  refine ⟨rules, rounds, hparse, hfirings ▸ hrounds, hlength.symm, hlength ▸ haccounts.rounds_le,
    fun round hr => sizes_le (hrounds.extendedBy round hr), haccounts.concepts_eq.trans (Nat.zero_add _),
    haccounts.relations_eq.trans (Nat.zero_add _), haccounts.fixpoint_iff, fun hopen => ?_⟩
  obtain ⟨hall, hadds⟩ := haccounts.all_of_open hopen
  exact ⟨hlength.trans hall, hadds⟩

/-- Of two rounds that are allowed the first finds that being sound is sound, and the second nothing
more. -/
theorem run_grows_of_soundness :
    run {} [soundness] (oneSound (.known "sound")) 2 = (.ok ⟨2, 4, 0, 1, true⟩, bothSound) ∧
      bothSound.SaysUnder "oak-is->sound" ⟨"oak", "is", "sound"⟩ ∧
      ∃ rounds last, Rounds {} [soundnessRule] (oneSound (.known "sound")) rounds 4 bothSound ∧
        rounds.length = 2 ∧ rounds.getLast? = some last ∧ AddsNothing last.1 last.2 := by
  have hm : (oneSound (.known "sound")).WellFormed :=
    (Graph.wellFormed_empty.addConcepts _).addRelations _
  have hadded := merge_eq_of_toExcept
    (show ((oneSound (.known "sound")).merge bothSound).toExcept = .ok bothSound by decide +kernel)
  have hnone := merge_eq_of_toExcept
    (show (bothSound.merge bothSound).toExcept = .ok bothSound by decide +kernel)
  have hallowed : Limits.checkRounds 2 = .ok () := by decide
  obtain ⟨hone, hboth⟩ := sizes_soundness
  have hstart := hone (.known "sound") List.mem_cons_self
  have hrun : run {} [soundness] (oneSound (.known "sound")) 2 =
      (.ok ⟨2, 4, 0, 1, true⟩, bothSound) := by
    simp only [run, parse_soundness, hallowed, runRounds, derive_soundness_known, hadded,
      derive_soundness_both, hnone, hstart, hboth]
    rfl
  obtain ⟨-, hkept, -, hreport⟩ := run_grows hm hrun
  obtain ⟨rules, rounds, hparse, hrounds, hlength, -, -, -, -, hfix, -⟩ := hreport _ rfl
  rw [parse_soundness] at hparse
  cases hparse
  obtain ⟨last, hlast, hnothing⟩ := hfix.mp rfl
  refine ⟨hrun, hkept _ _ ⟨.ofTriple ⟨"oak", "is", "sound"⟩, ?_, rfl⟩, rounds, last, hrounds, hlength,
    hlast, hnothing⟩
  decide

end KnowledgeGraph.Chaining
