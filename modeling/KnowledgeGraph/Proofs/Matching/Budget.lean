import KnowledgeGraph.Proofs.Matching.Enumeration
import Mathlib.Algebra.BigOperators.Ring.Finset
import Mathlib.Data.Nat.Factorial.Basic

/-!
# What a search costs

How many candidates a search tries depends on how many bindings it is asked for and on nothing else that
limits it. With that many steps it answers, with fewer it is given up, so a larger budget never changes
an answer. Main statement: `findBindings_within_budget`.
-/

namespace KnowledgeGraph.Matching

open Finset (range)

/-- A search used so many steps, or more than it had when it was given up. -/
def Spends (before : Progress) (tried : Nat) : Option Progress → Prop
  | some after => before.stepsLeft = tried + after.stepsLeft
  | none => before.stepsLeft < tried

namespace Problem

variable {problem : Problem} {unknown : String} {rest unknowns : List String} {binding : Binding}
  {before : Progress} {next : Binding → Progress → Option Progress} {costs : Binding → Nat → Nat}
  {yields : Binding → Nat} {wanted more : Nat} {candidates : List String}

/-- How many of some candidates for an unknown are tried, and how many for those after it, until so many
bindings are found: given what each admitted one costs and how many bindings it leads to. -/
def triesEach (problem : Problem) (unknown : String) (binding : Binding) (costs : Binding → Nat → Nat)
    (yields : Binding → Nat) : List String → Nat → Nat
  | [], _ => 0
  | candidate :: rest, wanted =>
    if wanted = 0 then 0
    else if binding.values.contains candidate then
      triesEach problem unknown binding costs yields rest wanted
    else if problem.fits binding unknown candidate then
      let longer := binding.insert unknown candidate
      1 + costs longer wanted +
        triesEach problem unknown binding costs yields rest (wanted - yields longer)
    else 1 + triesEach problem unknown binding costs yields rest wanted

/-- How many candidates are tried to extend a binding to the variables of a list until so many bindings
are found. -/
def tries (problem : Problem) : List String → Binding → Nat → Nat
  | [], _, _ => 0
  | unknown :: rest, binding, wanted =>
    problem.triesEach unknown binding (problem.tries rest)
      (fun longer => (problem.completions rest longer).length) problem.pool wanted

/-- Trying candidates spends what is counted, if what follows an admitted one does. -/
theorem tryEach_spends
    (hnext : ∀ binding before, before.wanted ≠ 0 →
      Spends before (costs binding before.wanted) (next binding before) ∧
      ∀ after, next binding before = some after → after.wanted = before.wanted - yields binding)
    (candidates : List String) (before : Progress) :
    Spends before (problem.triesEach unknown binding costs yields candidates before.wanted)
      (problem.tryEach unknown binding next candidates before) := by
  induction candidates generalizing before with
  | nil => exact (Nat.zero_add _).symm
  | cons candidate rest ih =>
    rw [tryEach, triesEach]
    by_cases hw : before.wanted = 0
    · rw [if_pos hw, if_pos hw]
      exact (Nat.zero_add _).symm
    rw [if_neg hw, if_neg hw]
    by_cases used : binding.values.contains candidate = true
    · rw [if_pos used, if_pos used]
      exact ih before
    rw [if_neg used, if_neg used]
    cases hl : before.stepsLeft with
    | zero =>
      simp only [Spends, hl]
      split <;> omega
    | succ left =>
      simp only
      split
      next fits =>
        obtain ⟨hspends, hwanted⟩ := hnext (binding.insert unknown candidate)
          { before with stepsLeft := left } hw
        cases hm : next (binding.insert unknown candidate) { before with stepsLeft := left } with
        | none =>
          simp only [hm, Spends] at hspends
          simp only [Spends, hl]
          omega
        | some middle =>
          have hrest := ih middle
          rw [hwanted middle hm] at hrest
          simp only [hm, Spends] at hspends
          simp only
          cases ha : problem.tryEach unknown binding next rest middle <;>
            simp only [ha, Spends, hl] at hrest ⊢ <;> omega
      next =>
        have hrest := ih { before with stepsLeft := left }
        cases ha : problem.tryEach unknown binding next rest { before with stepsLeft := left } <;>
          simp only [ha, Spends, hl] at hrest ⊢ <;> omega

/-- A search spends what is counted. -/
theorem extend_spends (problem : Problem) (unknowns : List String) (binding : Binding)
    (before : Progress) (hw : before.wanted ≠ 0) :
    Spends before (problem.tries unknowns binding before.wanted)
      (problem.extend unknowns binding before) := by
  induction unknowns generalizing binding before with
  | nil => exact (Nat.zero_add _).symm
  | cons unknown rest ih =>
    refine tryEach_spends (fun longer before hw => ⟨ih longer before hw, fun after ha => ?_⟩) _ _
    exact (extend_collects ha hw).2

/-- A search is given up when it has fewer steps than it takes. -/
theorem extend_eq_none_iff (problem : Problem) (unknowns : List String) (binding : Binding)
    (before : Progress) (hw : before.wanted ≠ 0) :
    problem.extend unknowns binding before = none ↔
      before.stepsLeft < problem.tries unknowns binding before.wanted := by
  have hspends := problem.extend_spends unknowns binding before hw
  cases h : problem.extend unknowns binding before with
  | none =>
    rw [h] at hspends
    exact ⟨fun _ => hspends, fun _ => rfl⟩
  | some after =>
    simp only [h, Spends] at hspends
    exact ⟨nofun, fun hlt => by omega⟩

/-- Trying candidates for more bindings costs no less, if what follows does not. -/
theorem triesEach_mono (hcosts : ∀ longer {wanted more : Nat}, wanted ≤ more →
      costs longer wanted ≤ costs longer more) (h : wanted ≤ more) :
    problem.triesEach unknown binding costs yields candidates wanted ≤
      problem.triesEach unknown binding costs yields candidates more := by
  induction candidates generalizing wanted more with
  | nil => exact Nat.le_refl _
  | cons candidate rest ih =>
    rw [triesEach, triesEach]
    by_cases hw : wanted = 0
    · rw [if_pos hw]
      exact Nat.zero_le _
    rw [if_neg hw, if_neg fun hm : more = 0 => hw (by omega)]
    by_cases used : binding.values.contains candidate = true
    · rw [if_pos used, if_pos used]
      exact ih h
    rw [if_neg used, if_neg used]
    by_cases fits : problem.fits binding unknown candidate = true
    · rw [if_pos fits, if_pos fits]
      have hfirst := hcosts (binding.insert unknown candidate) h
      have hrest := ih (Nat.sub_le_sub_right h (yields (binding.insert unknown candidate)))
      exact Nat.add_le_add (Nat.add_le_add_left hfirst 1) hrest
    · rw [if_neg fits, if_neg fits]
      exact Nat.add_le_add_left (ih h) 1

/-- A search for more bindings costs no less. -/
theorem tries_mono (h : wanted ≤ more) :
    problem.tries unknowns binding wanted ≤ problem.tries unknowns binding more := by
  induction unknowns generalizing binding wanted more with
  | nil => exact Nat.le_refl _
  | cons unknown rest ih => exact triesEach_mono (fun longer => ih) h

/-- The candidates that are not in use. -/
def unused (problem : Problem) (binding : Binding) : List String :=
  problem.pool.filter fun candidate => !binding.values.contains candidate

/-- Binding the next unknown uses up one candidate. -/
theorem length_unused_insert (hp : problem.pool.Nodup)
    (ha : (binding.keys ++ unknown :: rest).Pairwise (· < ·)) {candidate : String}
    (hc : candidate ∈ problem.unused binding) :
    (problem.unused (binding.insert unknown candidate)).length =
      (problem.unused binding).length - 1 := by
  have hvalues := (ascending_insert ha candidate).2.1
  have hrest : problem.unused (binding.insert unknown candidate) =
      (problem.unused binding).erase candidate := by
    rw [unused, unused, List.Nodup.erase_eq_filter (hp.filter _), List.filter_filter, hvalues]
    refine List.filter_congr fun other _ => ?_
    by_cases same : other = candidate <;> simp [same]
  rw [hrest, List.length_erase_of_mem hc]

/-- Trying candidates costs one step for each that is not in use, and what it leads to. -/
theorem triesEach_le {bound : Nat}
    (hcosts : ∀ candidate ∈ candidates, binding.values.contains candidate = false →
      ∀ wanted, costs (binding.insert unknown candidate) wanted ≤ bound) :
    problem.triesEach unknown binding costs yields candidates wanted ≤
      (candidates.filter fun candidate => !binding.values.contains candidate).length * (1 + bound) := by
  induction candidates generalizing wanted with
  | nil => exact Nat.zero_le _
  | cons candidate rest ih =>
    obtain ⟨hfirst, hrest⟩ := List.forall_mem_cons.mp hcosts
    rw [triesEach]
    split
    next => exact Nat.zero_le _
    next =>
      split
      next used =>
        rw [List.filter_cons_of_neg (by rw [used]; decide)]
        exact ih hrest
      next unused =>
        rw [Bool.not_eq_true] at unused
        rw [List.filter_cons_of_pos (by rw [unused]; rfl), List.length_cons, Nat.succ_mul]
        split
        next =>
          have hone := Nat.add_le_add_left (hfirst unused wanted) 1
          exact (Nat.add_comm _ _).trans_le (Nat.add_le_add (ih hrest) hone)
        next =>
          have hone := Nat.le_add_right 1 bound
          exact (Nat.add_comm _ _).trans_le (Nat.add_le_add (ih hrest) hone)

/-- The ways to choose some of several things in order, summed up by what is chosen first. -/
theorem sum_descFactorial_succ (count size : Nat) :
    ∑ i ∈ range (size + 1), count.descFactorial (i + 1) =
      count * (1 + ∑ i ∈ range size, (count - 1).descFactorial (i + 1)) := by
  cases count with
  | zero => simp
  | succ count =>
    rw [Finset.sum_range_succ', Nat.add_comm, Nat.mul_add, Finset.mul_sum]
    simp only [Nat.succ_descFactorial_succ, Nat.add_sub_cancel, Nat.descFactorial_zero]

/-- A search costs at most as many steps as there are ways to bind some of the first unknowns to
candidates that are not in use. -/
theorem tries_le (hp : problem.pool.Nodup) (ha : (binding.keys ++ unknowns).Pairwise (· < ·)) :
    problem.tries unknowns binding wanted ≤
      ∑ i ∈ range unknowns.length, (problem.unused binding).length.descFactorial (i + 1) := by
  induction unknowns generalizing binding wanted with
  | nil => exact Nat.le_refl _
  | cons unknown rest ih =>
    rw [List.length_cons, sum_descFactorial_succ]
    refine triesEach_le fun candidate hc hunused wanted => ?_
    have hfree : candidate ∈ problem.unused binding :=
      List.mem_filter.mpr ⟨hc, by rw [hunused]; rfl⟩
    rw [← length_unused_insert hp ha hfree]
    exact ih (ascending_insert ha candidate).2.2

end Problem

variable {query data : Graph}

/-- How many candidates must be tried to find so many embeddings: none if the search is not made. -/
def needed (query data : Graph) (wanted : Nat) : Nat :=
  if searched query data then
    (Problem.ofGraphs query data).tries query.unknownIds .empty wanted
  else 0

/-- A search whose limits admit the query answers if it has the steps that it takes, and is given up
otherwise. -/
theorem findBindings_eq_ite (hq : query.WellFormed) (hd : data.WellFormed) (limits : SearchLimits)
    (hr : 1 ≤ limits.maxResults) (hu : query.unknownIds.length ≤ limits.maxUnknowns) :
    findBindings limits query data =
      if needed query data limits.maxResults ≤ limits.maxSteps then
        .ok ((embeddings query data).take limits.maxResults)
      else .error (.searchBudgetExceeded limits.maxSteps) := by
  rw [findBindings_of_admitted hr hu, needed]
  by_cases hs : searched query data = true
  · have hgiven := (Problem.ofGraphs query data).extend_eq_none_iff query.unknownIds .empty
      ⟨limits.maxSteps, limits.maxResults, []⟩ (Nat.one_le_iff_ne_zero.mp hr)
    rw [if_pos hs, if_pos hs]
    cases h : (Problem.ofGraphs query data).extend query.unknownIds .empty
        ⟨limits.maxSteps, limits.maxResults, []⟩ with
    | none => rw [if_neg (Nat.not_le.mpr (hgiven.mp h))]
    | some after =>
      have hsteps : ¬limits.maxSteps < (Problem.ofGraphs query data).tries query.unknownIds .empty
          limits.maxResults := fun hlt => Option.some_ne_none after (h.symm.trans (hgiven.mpr hlt))
      rw [if_pos (Nat.not_lt.mp hsteps)]
      exact congrArg Except.ok (found_of_extend hs hr h)
  · rw [if_neg hs, if_neg hs, if_pos (Nat.zero_le _), embeddings_of_not_searched hq hd hs,
      List.take_nil]

/-- More embeddings cost no less. -/
theorem needed_mono : Monotone (needed query data) := by
  intro wanted more h
  rw [needed, needed]
  split
  next => exact Problem.tries_mono h
  next => exact Nat.le_refl _

/-- A search costs at most the sum of falling products. -/
theorem needed_le (hq : query.WellFormed) (hd : data.WellFormed) (wanted : Nat) :
    needed query data wanted ≤ ∑ i ∈ range query.unknownIds.length,
      (data.knownIds.filter fun id => !query.knownIds.contains id).length.descFactorial (i + 1) := by
  rw [needed]
  split
  next =>
    have hp : (Problem.ofGraphs query data).pool.Nodup := (hd.knownIds_ascending.imp String.ne_of_lt).filter _
    have hfree : (Problem.ofGraphs query data).unused .empty = (Problem.ofGraphs query data).pool :=
      List.filter_eq_self.mpr fun _ _ => rfl
    refine (Problem.tries_le hp hq.unknownIds_ascending).trans_eq ?_
    rw [hfree]
    rfl
  next => exact Nat.zero_le _

/-- Limits cut a search off and change nothing else. The embeddings stand in one list, and for every
number of results there is a number of steps: a search that has so many answers with the front of the
list, one that has fewer is given up. More results take no fewer steps, and no more than there are ways
to bind some of the first unknowns to candidates, each to its own. So more steps leave an answer as it
is, and a lower result limit gives the front of it. -/
theorem findBindings_within_budget (hq : query.WellFormed) (hd : data.WellFormed) :
    ∃ (all : List Binding) (needed : Nat → Nat),
      all.Nodup ∧
      all.Pairwise (fun first second => first.values < second.values) ∧
      (∀ binding, binding ∈ all ↔ Embeds query data binding) ∧
      (∀ limits : SearchLimits, 1 ≤ limits.maxResults →
        query.unknownIds.length ≤ limits.maxUnknowns →
        findBindings limits query data =
          if needed limits.maxResults ≤ limits.maxSteps then .ok (all.take limits.maxResults)
          else .error (.searchBudgetExceeded limits.maxSteps)) ∧
      Monotone needed ∧
      (∀ wanted, needed wanted ≤ ∑ i ∈ range query.unknownIds.length,
        (data.knownIds.filter fun id => !query.knownIds.contains id).length.descFactorial (i + 1)) ∧
      (∀ (limits : SearchLimits) (found : List Binding) (steps : Nat),
        findBindings limits query data = .ok found → limits.maxSteps ≤ steps →
        findBindings { limits with maxSteps := steps } query data = .ok found) ∧
      ∀ (limits : SearchLimits) (found : List Binding) (results : Nat),
        findBindings limits query data = .ok found → 1 ≤ results → results ≤ limits.maxResults →
        findBindings { limits with maxResults := results } query data = .ok (found.take results) := by
  have hsorted := embeddings_ascending hq hd
  -- An answer tells that the limits admit the query and that the steps were enough.
  have hanswer : ∀ (limits : SearchLimits) (found : List Binding),
      findBindings limits query data = .ok found →
      needed query data limits.maxResults ≤ limits.maxSteps ∧
        found = (embeddings query data).take limits.maxResults := by
    intro limits found h
    obtain ⟨hr, hu⟩ := limits_of_findBindings h
    rw [findBindings_eq_ite hq hd limits hr hu] at h
    split at h
    next hsteps => exact ⟨hsteps, (Except.ok.inj h).symm⟩
    next => cases h
  refine ⟨embeddings query data, needed query data, nodup_of_values_ascending hsorted, hsorted,
    fun _ => mem_embeddings_iff hq hd, findBindings_eq_ite hq hd,
    needed_mono, needed_le hq hd, fun limits found steps h hmore => ?_,
    fun limits found results h hone hfewer => ?_⟩
  · obtain ⟨hr, hu⟩ := limits_of_findBindings h
    obtain ⟨hsteps, rfl⟩ := hanswer limits found h
    have hlonger := findBindings_eq_ite hq hd { limits with maxSteps := steps } hr hu
    rwa [if_pos (hsteps.trans hmore)] at hlonger
  · obtain ⟨-, hu⟩ := limits_of_findBindings h
    obtain ⟨hsteps, rfl⟩ := hanswer limits found h
    have hfront := findBindings_eq_ite hq hd { limits with maxResults := results } hone hu
    rw [if_pos ((needed_mono hfewer).trans hsteps)] at hfront
    rwa [List.take_take, Nat.min_eq_left hfewer]

/-- One embedding of two hops among the colours takes 11 of at most 16 steps, and two more steps show that
it is the only one. -/
theorem findBindings_within_budget_of_two_hops :
    twoHops.WellFormed ∧ colours.WellFormed ∧
    ∃ (all : List Binding) (needed : Nat → Nat),
      (∀ binding, binding ∈ all ↔ Embeds twoHops colours binding) ∧
      needed 1 = 11 ∧ needed 2 = 13 ∧ (∀ wanted, needed wanted ≤ 16) ∧
      findBindings { maxSteps := 12 } twoHops colours = .error (.searchBudgetExceeded 12) := by
  have hq : twoHops.WellFormed := Graph.wellFormed_ofStatements _ _
  have hd : colours.WellFormed := Graph.wellFormed_ofStatements _ _
  have hcount : twoHops.unknownIds.length ≤ 16 := by decide
  obtain ⟨all, needed, -, -, hmem, hlimits, -, hbound, -⟩ := findBindings_within_budget hq hd
  -- A search tells by its outcome on which side of the number its steps are.
  have hfew : ∀ results steps fault, 1 ≤ results →
      findBindings { maxResults := results, maxSteps := steps } twoHops colours = .error fault →
      steps < needed results := by
    intro results steps fault hr h
    have heq := hlimits { maxResults := results, maxSteps := steps } hr hcount
    by_contra henough
    rw [if_pos (Nat.not_lt.mp henough), h] at heq
    cases heq
  have henough : ∀ results steps found, 1 ≤ results →
      findBindings { maxResults := results, maxSteps := steps } twoHops colours = .ok found →
      needed results ≤ steps := by
    intro results steps found hr h
    have heq := hlimits { maxResults := results, maxSteps := steps } hr hcount
    by_contra hfew
    rw [if_neg hfew, h] at heq
    cases heq
  have hone : needed 1 = 11 := by
    have hless := hfew 1 10 (.searchBudgetExceeded 10) (by decide) (by decide)
    have hmost := henough 1 11 [.ofList [("?a", "sky"), ("?b", "blue")]] (by decide) (by decide)
    omega
  have htwo : needed 2 = 13 := by
    have hless := hfew 2 12 (.searchBudgetExceeded 12) (by decide) (by decide)
    have hmost := henough 2 13 [.ofList [("?a", "sky"), ("?b", "blue")]] (by decide) (by decide)
    omega
  refine ⟨hq, hd, all, needed, hmem, hone, htwo, fun wanted => ?_, by decide⟩
  refine (hbound wanted).trans_eq ?_
  decide

end KnowledgeGraph.Matching
