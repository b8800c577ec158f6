import KnowledgeGraph.Proofs.Graph.Reachable
import KnowledgeGraph.Proofs.Rule.Growth
import KnowledgeGraph.Proofs.Rule.Metadata
import KnowledgeGraph.Proofs.Rule.Resolution
import KnowledgeGraph.Proofs.Store.Saving
import KnowledgeGraph.Script.Running

/-!
# What a run of a script leaves in the store

An operation that fails leaves a store in tables as it was, so that a run that fails leaves what the
operations before the failing one left. Chaining extends the memory that it starts from, round by round,
and that memory is the stored graph: what was chained can therefore always be saved and takes the place
of the stored graph. Main statement: both, for every script; in tables the graph that takes the place is
the one that is read from the text of its rows.
-/

namespace KnowledgeGraph

namespace Script

variable {script : Script} {files : FileTree} {limits : SearchLimits} {operation : Operation}
  {store after : Store} {tables : Tables} {failure : Failure}

/-- What comes out of tables is a store in tables, and these are as they were if it is a failure. -/
structure Spares {α : Type} (tables : Tables) (result : Except Failure α × Store) : Prop where
  /-- The store is one in tables. -/
  durable : ∃ tables', result.2 = .durable tables'
  /-- If it is a failure these are the tables. -/
  same : ∀ failure, result.1 = .error failure → result.2 = .durable tables

/-- The tables themselves may come out. -/
theorem Spares.unchanged {α : Type} (tables : Tables) (outcome : Except Failure α) :
    Spares tables (outcome, .durable tables) :=
  ⟨⟨tables, rfl⟩, fun _ _ => rfl⟩

/-- Saving spares the tables. -/
theorem saveOrFail_spares (tables : Tables) (g : Graph) :
    Spares tables ((Store.durable tables).saveOrFail g) := by
  cases hsave : tables.save g with
  | ok tables' =>
    simp only [Store.saveOrFail, Store.save, hsave]
    refine ⟨⟨tables', rfl⟩, fun failure hfailed => ?_⟩
    cases hfailed
  | error fault =>
    simp only [Store.saveOrFail, Store.save, hsave]
    exact .unchanged tables _

/-- So does saving before something else comes out. -/
theorem Spares.saving (tables : Tables) (g : Graph) (outcome : Outcome) :
    Spares tables
      (match (Store.durable tables).saveOrFail g with
      | (.ok (), store) => (.ok outcome, store)
      | (.error failure, store) => (.error failure, store)) := by
  obtain ⟨hdurable, hsame⟩ := saveOrFail_spares tables g
  cases hsave : (Store.durable tables).saveOrFail g with
  | mk saved store =>
    rw [hsave] at hdurable hsame
    cases saved with
    | ok => exact ⟨hdurable, nofun⟩
    | error failure => exact ⟨hdurable, fun _ _ => hsame failure rfl⟩

/-- Adding a graph spares the tables. -/
theorem mergeInto_spares (tables : Tables) (found : Except Failure Graph) :
    Spares tables (mergeInto (.durable tables) found) := by
  cases found with
  | error failure => exact .unchanged tables _
  | ok g => exact .saving tables g _

/-- Every operation spares the tables. -/
theorem perform_spares (script : Script) (files : FileTree) (limits : SearchLimits)
    (operation : Operation) (tables : Tables) :
    Spares tables (script.perform files limits operation (.durable tables)) := by
  cases operation with
  | load file => exact mergeInto_spares tables _
  | assert outline => exact mergeInto_spares tables _
  | query outline => exact .unchanged tables _
  | clear => exact ⟨⟨_, rfl⟩, nofun⟩
  | applyRule rule commit =>
    cases hfound : (Store.durable tables).conclude limits rule with
    | error failure =>
      simp only [perform, hfound]
      exact .unchanged tables _
    | ok g =>
      simp only [perform, hfound]
      split
      next => exact .saving tables g _
      next => exact .unchanged tables _
  | chain names maxRounds =>
    cases hfound : (Store.durable tables).rulesAndGraph names with
    | error failure =>
      simp only [perform, hfound]
      exact .unchanged tables _
    | ok found =>
      obtain ⟨rules, memory⟩ := found
      cases hrun : Chaining.run limits rules memory (maxRounds.getD script.maxRounds) with
      | mk outcome final =>
        cases outcome with
        | error fault =>
          simp only [perform, hfound, hrun]
          exact .unchanged tables _
        | ok report =>
          simp only [perform, hfound, hrun]
          exact .saving tables final _

/-- Operations on tables that fail leave what those before the failing one leave, which are performed
without fault. -/
theorem performAll_of_failure {number : Nat} {operations : List Operation}
    (h : script.performAll files limits number operations (.durable tables) = (.error failure, after)) :
    ∃ done inner outcomes, ∃ hlt : done < operations.length,
      failure = inner.within (.step (number + done)) ∧
      script.performAll files limits number (operations.take done) (.durable tables) =
        (.ok outcomes, after) ∧
      script.perform files limits operations[done] after = (.error inner, after) := by
  induction operations generalizing number tables with
  | nil => cases h
  | cons operation rest ih =>
    obtain ⟨⟨tables', hdurable⟩, hsame⟩ := perform_spares script files limits operation tables
    rw [performAll] at h
    cases hperform : script.perform files limits operation (.durable tables) with
    | mk result store =>
      rw [hperform] at h hdurable hsame
      obtain rfl : store = .durable tables' := hdurable
      cases result with
      | error inner =>
        cases h
        obtain rfl : tables' = tables := Store.durable.inj (hsame inner rfl)
        exact ⟨0, inner, [], Nat.zero_lt_succ _, rfl, rfl, hperform⟩
      | ok outcome =>
        simp only at h
        cases hrest : script.performAll files limits (number + 1) rest (.durable tables') with
        | mk result store =>
          rw [hrest] at h
          cases result with
          | ok outcomes => cases h
          | error failure' =>
            cases h
            obtain ⟨done, inner, outcomes, hlt, hfailure, hbefore, hat⟩ := ih hrest
            refine ⟨done + 1, inner, outcome :: outcomes, Nat.succ_lt_succ hlt, ?_, ?_, hat⟩
            · rw [hfailure, Nat.add_assoc, Nat.add_comm 1 done]
            · rw [List.take_succ_cons, performAll, hperform]
              simp only [hbefore]

/-- Operations are performed alike by scripts that differ in their operations alone. -/
theorem performAll_of_operations (operations : List Operation) {number : Nat}
    {performed : List Operation} :
    { script with operations }.performAll files limits number performed store =
      script.performAll files limits number performed store := by
  induction performed generalizing number store with
  | nil => rfl
  | cons operation rest ih =>
    have hsame : { script with operations }.perform files limits operation store =
        script.perform files limits operation store := by cases operation <;> rfl
    rw [performAll, performAll, hsame]
    cases script.perform files limits operation store with
    | mk result next =>
      cases result with
      | error failure => rfl
      | ok outcome => simp only [ih]

/-- A run on tables that fails leaves what the run of the operations before the failing one leaves, which
does not fail. -/
theorem run_of_failure (h : script.run files limits (.durable tables) = (.error failure, after)) :
    ∃ done inner outcomes, ∃ hlt : done < script.operations.length,
      failure = inner.within (.step (done + 1)) ∧
      { script with operations := script.operations.take done }.run files limits (.durable tables) =
        (.ok outcomes, after) ∧
      script.perform files limits script.operations[done] after = (.error inner, after) := by
  obtain ⟨done, inner, outcomes, hlt, hfailure, hbefore, hat⟩ := performAll_of_failure h
  refine ⟨done, inner, outcomes, hlt, ?_, ?_, hat⟩
  · rw [hfailure, Nat.add_comm]
  · rw [run, performAll_of_operations]
    exact hbefore

/-- The graph of an outline text is well-formed. -/
theorem wellFormed_ofText {text : String} {g : Graph} (h : Graph.ofText text = .ok g) : g.WellFormed := by
  unfold Graph.ofText at h
  obtain ⟨outline, -, hread⟩ := exists_of_bind_eq_ok h
  exact Graph.wellFormed_ofOutline hread

/-- The graph of an outline file is well-formed. -/
theorem wellFormed_readGraph {path : String} {g : Graph} (h : files.readGraph path = .ok g) :
    g.WellFormed := by
  unfold FileTree.readGraph at h
  obtain ⟨text, -, hread⟩ := exists_of_bind_eq_ok h
  exact wellFormed_ofText (eq_ok_of_mapError hread)

/-- A rule that is given out is a part of the graph. -/
theorem exists_part_of_ruleNamed {g rule : Graph} {name : String} (h : ruleNamed g name = .ok rule) :
    ∃ ids, rule = g.part ids := by
  unfold ruleNamed at h
  split at h
  next => cases h
  next =>
    cases h
    exact ⟨_, rfl⟩

/-- What follows by a stored rule is well-formed. -/
theorem wellFormed_conclude {name : String} {g : Graph} (hs : store.Sound)
    (h : store.conclude limits name = .ok g) : g.WellFormed := by
  unfold Store.conclude at h
  obtain ⟨ruleGraph, hrule, h⟩ := exists_of_bind_eq_ok h
  obtain ⟨memory, -, h⟩ := exists_of_bind_eq_ok h
  obtain ⟨rule, hof, happly⟩ := exists_of_bind_eq_ok (eq_ok_of_mapError h)
  have hruleGraph : ruleGraph.WellFormed := by
    obtain ⟨data, hload, hnamed⟩ := exists_of_bind_eq_ok (eq_ok_of_mapError hrule)
    obtain ⟨ids, rfl⟩ := exists_part_of_ruleNamed hnamed
    exact (hs.of_load (eq_ok_of_mapError hload)).1.part ids
  unfold Rule.applyFirst at happly
  obtain ⟨bindings, -, happly⟩ := exists_of_bind_eq_ok happly
  split at happly
  next =>
    cases happly
    exact Graph.wellFormed_empty
  next =>
    unfold Rule.conclude at happly
    obtain ⟨_, -, hground⟩ := exists_of_bind_eq_ok happly
    exact Rule.ground_wellFormed (Rule.wellFormed_of_ofGraph hruleGraph hof).2 hground

/-- Saving a well-formed graph leaves a sound store. -/
theorem saveOrFail_sound {g : Graph} (hs : store.Sound) (hg : g.WellFormed) :
    (store.saveOrFail g).2.Sound := by
  have hsaved := hs.save hg
  unfold Store.saveOrFail
  cases hsave : store.save g with
  | mk after fault =>
    rw [hsave] at hsaved
    cases fault <;> exact hsaved

/-- So does saving it before something else comes out. -/
theorem saving_sound {g : Graph} (hs : store.Sound) (hg : g.WellFormed) (outcome : Outcome) :
    ((match store.saveOrFail g with
      | (.ok (), store) => (.ok outcome, store)
      | (.error failure, store) => (.error failure, store)) : Except Failure Outcome × Store).2.Sound := by
  have hsaved := saveOrFail_sound hs hg
  cases hsave : store.saveOrFail g with
  | mk saved after =>
    rw [hsave] at hsaved
    cases saved <;> exact hsaved

/-- Adding a graph that was read leaves a sound store. -/
theorem mergeInto_sound {found : Except Failure Graph} (hs : store.Sound)
    (hg : ∀ g, found = .ok g → g.WellFormed) : (mergeInto store found).2.Sound := by
  cases found with
  | error failure => exact hs
  | ok g => exact saving_sound hs (hg g rfl) _

/-- The graph that an operation takes its rules from is the stored one. -/
theorem load_of_rulesAndGraph {names : List String} {rules : List Graph} {memory : Graph}
    (h : store.rulesAndGraph names = .ok (rules, memory)) : store.load = .ok memory := by
  unfold Store.rulesAndGraph at h
  obtain ⟨_, -, h⟩ := exists_of_bind_eq_ok h
  obtain ⟨_, hload, h⟩ := exists_of_bind_eq_ok h
  cases h
  exact eq_ok_of_mapError hload

/-- Both the rules and the graph that an operation takes are those of the stored graph. -/
theorem rulesAndGraph_of_load {names : List String} {memory : Graph} (h : store.load = .ok memory) :
    store.rulesAndGraph names =
      ((names.mapM (ruleNamed memory)).mapError Failure.ofStoreFault).map fun rules => (rules, memory) := by
  have hrule : store.rule = ruleNamed memory := by
    funext name
    rw [Store.rule, h]
    rfl
  rw [Store.rulesAndGraph, hrule, h]
  cases names.mapM (ruleNamed memory) <;> rfl

/-- The memory that is chained over the graph of a sound store extends it and is well-formed. -/
theorem extends_of_rulesAndGraph {names : List String} {rules : List Graph} {memory : Graph}
    (maxRounds : Nat) (hs : store.Sound) (h : store.rulesAndGraph names = .ok (rules, memory)) :
    memory.ExtendedBy (Chaining.run limits rules memory maxRounds).2 ∧
      (Chaining.run limits rules memory maxRounds).2.WellFormed := by
  obtain ⟨hwell, -⟩ := hs.of_load (load_of_rulesAndGraph h)
  exact Chaining.run_extends hwell

/-- The store can read that memory. -/
theorem reads_of_rulesAndGraph {names : List String} {rules : List Graph} {memory : Graph}
    (maxRounds : Nat) (hs : store.Sound) (h : store.rulesAndGraph names = .ok (rules, memory)) :
    store.Reads (Chaining.run limits rules memory maxRounds).2 := by
  obtain ⟨-, hreads⟩ := hs.of_load (load_of_rulesAndGraph h)
  rw [rulesAndGraph_of_load (load_of_rulesAndGraph h)] at h
  obtain ⟨found, hfound, hpair⟩ := exists_of_map_eq_ok h
  obtain ⟨rfl, -⟩ := Prod.mk.inj hpair
  cases store with
  | memory stored => trivial
  | durable tables =>
    have hrules : ∀ rule ∈ found, rule.Carries Tables.Fits := by
      intro rule hr
      obtain ⟨name, -, hnamed⟩ := (mem_of_mapM_eq_ok (eq_ok_of_mapError hfound)).1 rule hr
      obtain ⟨ids, rfl⟩ := exists_part_of_ruleNamed hnamed
      exact Graph.Carries.part hreads ids
    exact Chaining.run_carries Tables.lasting_fits hrules hreads

/-- Every operation leaves a sound store, also if it fails. -/
theorem perform_sound (operation : Operation) (hs : store.Sound) :
    (script.perform files limits operation store).2.Sound := by
  cases operation with
  | load file => exact mergeInto_sound hs fun g hg => wellFormed_readGraph hg
  | assert outline => exact mergeInto_sound hs fun g hg => wellFormed_ofText (eq_ok_of_mapError hg)
  | query outline => exact hs
  | clear => exact .clear store
  | applyRule rule commit =>
    cases hfound : store.conclude limits rule with
    | error failure =>
      simp only [perform, hfound]
      exact hs
    | ok g =>
      simp only [perform, hfound]
      split
      next => exact saving_sound hs (wellFormed_conclude hs hfound) _
      next => exact hs
  | chain names maxRounds =>
    cases hfound : store.rulesAndGraph names with
    | error failure =>
      simp only [perform, hfound]
      exact hs
    | ok found =>
      obtain ⟨rules, memory⟩ := found
      have hfinal := (@extends_of_rulesAndGraph limits store names rules memory
        (maxRounds.getD script.maxRounds) hs hfound).2
      cases hrun : Chaining.run limits rules memory (maxRounds.getD script.maxRounds) with
      | mk outcome final =>
        rw [hrun] at hfinal
        cases outcome with
        | error fault =>
          simp only [perform, hfound, hrun]
          exact hs
        | ok report =>
          simp only [perform, hfound, hrun]
          exact saving_sound hs hfinal _

/-- Operations leave a sound store, also where one fails. -/
theorem performAll_sound {number : Nat} {operations : List Operation} (hs : store.Sound) :
    (script.performAll files limits number operations store).2.Sound := by
  induction operations generalizing number store with
  | nil => exact hs
  | cons operation rest ih =>
    have hnext := @perform_sound script files limits store operation hs
    rw [performAll]
    cases hperform : script.perform files limits operation store with
    | mk result next =>
      rw [hperform] at hnext
      cases result with
      | error failure => exact hnext
      | ok outcome =>
        have hrest := @ih next (number + 1) hnext
        simp only
        cases hall : script.performAll files limits (number + 1) rest next with
        | mk result after =>
          rw [hall] at hrest
          cases result <;> exact hrest

/-- Rules that were chained without fault over the graph of a sound store are an operation that succeeds:
the memory that was chained is saved and takes the place of the stored graph. -/
theorem perform_chain {names : List String} {maxRounds : Option Nat} {rules : List Graph}
    {memory final : Graph} {report : Chaining.Report} (hs : store.Sound)
    (hfound : store.rulesAndGraph names = .ok (rules, memory))
    (hrun : Chaining.run limits rules memory (maxRounds.getD script.maxRounds) = (.ok report, final)) :
    ∃ after, script.perform files limits (.chain names maxRounds) store =
        (.ok (.chained report), after) ∧ after.load = .ok (store.written final) := by
  obtain ⟨hextends, hfinal⟩ := @extends_of_rulesAndGraph limits store names rules memory
    (maxRounds.getD script.maxRounds) hs hfound
  have hreads := @reads_of_rulesAndGraph limits store names rules memory
    (maxRounds.getD script.maxRounds) hs hfound
  rw [hrun] at hextends hfinal hreads
  obtain ⟨after, hsave, hafter⟩ :=
    hs.save_of_extendedBy (load_of_rulesAndGraph hfound) hextends hfinal hreads
  refine ⟨after, ?_, hafter⟩
  simp only [perform, hfound, hrun, Store.saveOrFail, hsave]

/-- A chaining that succeeds has found its rules and chained them without fault. -/
theorem run_of_perform_chain {names : List String} {maxRounds : Option Nat} {outcome : Outcome}
    (h : script.perform files limits (.chain names maxRounds) store = (.ok outcome, after)) :
    ∃ rules memory report final, store.rulesAndGraph names = .ok (rules, memory) ∧
      Chaining.run limits rules memory (maxRounds.getD script.maxRounds) = (.ok report, final) := by
  cases hfound : store.rulesAndGraph names with
  | error failure =>
    simp only [perform, hfound] at h
    cases h
  | ok found =>
    obtain ⟨rules, memory⟩ := found
    cases hrun : Chaining.run limits rules memory (maxRounds.getD script.maxRounds) with
    | mk result final =>
      cases result with
      | error fault =>
        simp only [perform, hfound, hrun] at h
        cases h
      | ok report => exact ⟨rules, memory, report, final, rfl, hrun⟩

/-- Main result: a run on tables that fails leaves what the run of the operations before the failing one
leaves. A run leaves a sound store. A chaining that succeeds on a sound store has chained the stored rules
over the stored graph, and what was chained takes its place: in memory the graph itself, in tables the graph
of its rows, which is the graph itself just when the store takes it up. Saving it cannot fail: rules that are
chained without fault are a chaining that succeeds. -/
theorem run_atomic_and_chain_stored (script : Script) (files : FileTree) (limits : SearchLimits) :
    (∀ tables failure after, script.run files limits (.durable tables) = (.error failure, after) →
      ∃ done inner outcomes, ∃ hlt : done < script.operations.length,
        failure = inner.within (.step (done + 1)) ∧
        { script with operations := script.operations.take done }.run files limits (.durable tables) =
          (.ok outcomes, after) ∧
        script.perform files limits script.operations[done] after = (.error inner, after)) ∧
    ∀ store : Store, store.Sound → (script.run files limits store).2.Sound ∧
      ∀ names maxRounds,
        (∀ outcome after, script.perform files limits (.chain names maxRounds) store =
            (.ok outcome, after) →
          ∃ rules memory report final, store.load = .ok memory ∧
            store.rulesAndGraph names = .ok (rules, memory) ∧
            Chaining.run limits rules memory (maxRounds.getD script.maxRounds) = (.ok report, final) ∧
            outcome = .chained report ∧ after.load = .ok (store.written final) ∧
            (after.load = .ok final ↔ store.TakesUp final)) ∧
        ∀ rules memory report final, store.rulesAndGraph names = .ok (rules, memory) →
          Chaining.run limits rules memory (maxRounds.getD script.maxRounds) = (.ok report, final) →
          ∃ after, script.perform files limits (.chain names maxRounds) store =
            (.ok (.chained report), after) := by
  refine ⟨fun tables failure after => run_of_failure, fun store hs =>
    ⟨performAll_sound hs, fun names maxRounds => ⟨fun outcome after h => ?_, ?_⟩⟩⟩
  · obtain ⟨rules, memory, report, final, hfound, hrun⟩ := run_of_perform_chain h
    obtain ⟨kept, hperform, hload⟩ := @perform_chain script files limits store _ _ _ _ _ _ hs hfound hrun
    obtain ⟨houtcome, rfl⟩ := Prod.mk.inj (h.symm.trans hperform)
    have hreads := @reads_of_rulesAndGraph limits store names rules memory
      (maxRounds.getD script.maxRounds) hs hfound
    rw [hrun] at hreads
    refine ⟨rules, memory, report, final, load_of_rulesAndGraph hfound, hfound, hrun,
      Except.ok.inj houtcome, hload, ?_⟩
    rw [hload, Except.ok.injEq, Store.written_eq_self hreads]
  · intro rules memory report final hfound hrun
    obtain ⟨after, hperform, -⟩ := @perform_chain script files limits store _ _ _ _ _ _ hs hfound hrun
    exact ⟨after, hperform⟩

/-- The rule that everything is a thing, taken apart. -/
def beingRule : Rule where
  root := "being"
  hypothesis := .ofStatements ["?x"] []
  mapping := .empty
  conclusion := .ofStatements ["?x", "thing"] [⟨"?x", "is", "thing"⟩]
  becomes := []

/-- What follows from the rule for what it speaks of. -/
def beings : Graph :=
  .ofStatements ["being", "thing"] [⟨"being", "is", "thing"⟩, ⟨"thing", "is", "thing"⟩]

/-- The rule and what follows for what it speaks of. -/
def wholeBeing : Graph :=
  .ofStatements ["being", "?x", "thing"]
    [⟨"being", "is", "thing"⟩, ⟨"thing", "is", "thing"⟩, ⟨"?x", "is", "thing"⟩,
      ⟨"being", "has_hypothesis", "?x"⟩, ⟨"being", "has_conclusion", "?x"⟩,
      ⟨"being", "has_conclusion", "thing"⟩]

/-- One round of the rule over itself adds what follows. -/
theorem chaining_being : Chaining.run {} [Store.being] Store.being 1 =
    (.ok ⟨1, 2, 0, 2, false⟩, wholeBeing) := by
  have hparse : [Store.being].mapM Rule.ofGraph = .ok [beingRule] := by decide +kernel
  have hh : beingRule.hypothesis.WellFormed := Graph.wellFormed_ofStatements _ _
  have hbeing : Store.being.WellFormed := Graph.wellFormed_ofStatements _ _
  have hderive : Chaining.derive {} Store.being .empty 0 [beingRule] = .ok (beings, 2) := by
    rw [Chaining.derive, Rule.applyAll_eq hh hbeing]
    decide +kernel
  have hmerge : Store.being.merge beings = ⟨wholeBeing, none⟩ :=
    Graph.eq_mk_of_toExcept (by decide +kernel)
  have hconcepts : wholeBeing.concepts.size = 3 ∧ Store.being.concepts.size = 3 := by decide +kernel
  have hrelations : wholeBeing.relations.size = 6 ∧ Store.being.relations.size = 4 := by
    decide +kernel
  have hrounds : Limits.checkRounds 1 = .ok () := by decide
  simp only [Chaining.run, hparse, hrounds, Chaining.runRounds, hderive, hmerge, hconcepts, hrelations]
  rfl

/-- The rule is chained for a round, and then one that is not stored. -/
def unfinished : Script where
  operations := [.chain ["being"] (some 1), .chain ["owning"] none]

/-- The script fails at its second operation and leaves what its first operation leaves, which is the
memory that was chained. -/
theorem run_atomic_and_chain_stored_of_unfinished :
    ∃ tables after failure, Tables.new.save Store.being = .ok tables ∧
      unfinished.run {} {} (.durable tables) = (.error failure, after) ∧
      failure = (Failure.ofStoreFault (.ruleNotFound "owning")).within (.step 2) ∧
      { unfinished with operations := [.chain ["being"] (some 1)] }.run {} {} (.durable tables) =
        (.ok [.chained ⟨1, 2, 0, 2, false⟩], after) ∧
      after.load = .ok wholeBeing := by
  obtain ⟨hkept, hchained⟩ := run_atomic_and_chain_stored unfinished {} {}
  have hbeing : Store.being.WellFormed := Graph.wellFormed_ofStatements _ _
  have hrows : Store.being.Rereads := Tables.rereads_of_lists (by decide +kernel) (by decide +kernel)
  have hwhole : wholeBeing.Rereads := Tables.rereads_of_lists (by decide +kernel) (by decide +kernel)
  have hfits : Store.being.Carries Tables.Fits := by decide +kernel
  obtain ⟨tables, hsave, hsound, hload⟩ := Tables.save_new_eq hbeing hfits
  rw [(Graph.reread_eq_self hfits).mpr hrows] at hload
  obtain ⟨-, hchain⟩ := hchained (.durable tables) hsound
  have hfound : (Store.durable tables).rulesAndGraph ["being"] = .ok ([Store.being], Store.being) := by
    rw [@rulesAndGraph_of_load (.durable tables) _ _ hload]
    decide +kernel
  obtain ⟨hstored, hchains⟩ := hchain ["being"] (some 1)
  obtain ⟨after, hfirst⟩ := hchains _ _ _ _ hfound chaining_being
  obtain ⟨_, _, _, _, -, hfound', hrun', -, -, hafter⟩ := hstored _ _ hfirst
  rw [hfound] at hfound'
  cases hfound'
  obtain ⟨-, rfl⟩ := Prod.mk.inj (chaining_being.symm.trans hrun')
  have hloaded := hafter.mpr hwhole
  have hnorule : after.rulesAndGraph ["owning"] = .error (.ofStoreFault (.ruleNotFound "owning")) := by
    rw [rulesAndGraph_of_load hloaded]
    decide +kernel
  have hsecond : unfinished.perform {} {} (.chain ["owning"] none) after =
      (.error (.ofStoreFault (.ruleNotFound "owning")), after) := by
    simp only [perform, hnorule]
  have hrun : unfinished.run {} {} (.durable tables) =
      (.error ((Failure.ofStoreFault (.ruleNotFound "owning")).within (.step 2)), after) := by
    rw [run, show unfinished.operations = [.chain ["being"] (some 1), .chain ["owning"] none] from rfl,
      performAll, hfirst]
    simp only [performAll, hsecond]
  obtain ⟨done, inner, outcomes, hlt, hfailure, hbefore, -⟩ := hkept _ _ _ hrun
  obtain rfl : done = 1 := by
    injection hfailure with hcontexts
    injection hcontexts with hstep
    injection hstep with hnumber
    exact (Nat.succ.inj hnumber).symm
  have honly : outcomes = [.chained ⟨1, 2, 0, 2, false⟩] := by
    rw [run, performAll_of_operations,
      show unfinished.operations.take 1 = [.chain ["being"] (some 1)] from rfl, performAll,
      hfirst] at hbefore
    cases hbefore
    rfl
  rw [honly] at hbefore
  exact ⟨tables, after, _, hsave, hrun, rfl, hbefore, hloaded⟩

/-- A measured thing: with the even mantissa the decimals of its measure are read as the odd one, and with
the odd mantissa as the even one. -/
def measured (mantissa : Nat) : Graph :=
  Graph.empty.addConcept
    { Concept.known "rod" with
      metadata := .ofList [("length", .number (.double ⟨false, mantissa, -92⟩))] }

/-- In tables a chaining without rules does not leave the memory that it chained, since the measure is
written once more. -/
theorem not_chain_stored_of_measured :
    ¬∀ (script : Script) (files : FileTree) (limits : SearchLimits) (store after : Store)
        (names : List String) (maxRounds : Option Nat) (rules : List Graph) (memory final : Graph)
        (report : Chaining.Report),
      store.Sound → store.rulesAndGraph names = .ok (rules, memory) →
      Chaining.run limits rules memory (maxRounds.getD script.maxRounds) = (.ok report, final) →
      script.perform files limits (.chain names maxRounds) store = (.ok (.chained report), after) →
      after.load = .ok final := by
  intro hall
  have heven : (measured 4592812768302424).WellFormed := Graph.wellFormed_empty.addConcept _
  have hodd : (measured 4592812768302424).reread = measured 4592812768302425 := by decide +kernel
  have hdrifts : (measured 4592812768302425).reread ≠ measured 4592812768302425 := by decide +kernel
  obtain ⟨tables, -, hsound, hload⟩ := Tables.save_new_eq heven (by decide +kernel)
  rw [hodd] at hload
  have hfound : (Store.durable tables).rulesAndGraph [] = .ok ([], measured 4592812768302425) :=
    rulesAndGraph_of_load hload
  have hrun : Chaining.run {} [] (measured 4592812768302425) 1 =
      (.ok ⟨1, 0, 0, 0, true⟩, measured 4592812768302425) := by decide +kernel
  obtain ⟨after, hperform, hafter⟩ :=
    @perform_chain { operations := [] } {} {} (.durable tables) [] (some 1) _ _ _ _ hsound hfound hrun
  have hsame := hall _ _ _ (.durable tables) _ _ _ _ _ _ _ hsound hfound hrun hperform
  exact hdrifts (Except.ok.inj (hafter.symm.trans hsame))

end Script

end KnowledgeGraph
