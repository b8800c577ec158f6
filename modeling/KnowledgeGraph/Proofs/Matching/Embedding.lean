import KnowledgeGraph.Matching.Search
import KnowledgeGraph.Proofs.Graph.WellFormed

/-!
# Embeddings of a query

An embedding binds the unknowns of a query to known data concepts of their own so that the data says
every relation of the query. The search is compared with the list of all ways to complete a binding,
which it cuts off when enough are found. Every completion is met once, in the order of the bound
concepts, and those of the empty binding are just the embeddings.
-/

namespace KnowledgeGraph.Matching

/-- What makes a binding an embedding of a query into data. -/
structure Embeds (query data : Graph) (binding : Binding) : Prop where
  /-- Just the unknowns of the query are bound. -/
  keys_eq : binding.keys = query.unknownIds
  /-- They are bound to known concepts of the data. -/
  known : ∀ unknown bound, binding.get? unknown = some bound → bound ∈ data.knownIds
  /-- None is bound to a known concept of the query. -/
  free : ∀ unknown bound, binding.get? unknown = some bound → bound ∉ query.knownIds
  /-- No two are bound to one concept. -/
  injective : ∀ first second bound, binding.get? first = some bound →
    binding.get? second = some bound → first = second
  /-- The data has every known concept of the query. -/
  present : ∀ id ∈ query.knownIds, data.hasConcept id = true
  /-- The data says every relation of the query, with what its ends stand for. -/
  holds : ∀ relation ∈ query.relationList,
    ∃ found ∈ data.relationList, found.triple = binding.resolveTriple relation.triple

/-- Between two moments of a search a list of results was found, as far as results were wanted. -/
def Collects (before after : Progress) (results : List Binding) : Prop :=
  after.found = (results.take before.wanted).reverse ++ before.found ∧
    after.wanted = before.wanted - results.length

/-- A search that stays where it is collects nothing. -/
theorem Collects.nil (progress : Progress) : Collects progress progress [] := by
  constructor
  · rw [List.take_nil]
    rfl
  · rfl

/-- A search from which nothing is wanted may stay where it is. -/
theorem Collects.of_wanted {progress : Progress} (h : progress.wanted = 0)
    (results : List Binding) : Collects progress progress results := by
  constructor
  · rw [h, List.take_zero]
    rfl
  · omega

/-- What is collected one after the other is collected together. -/
theorem Collects.append {before middle after : Progress} {first second : List Binding}
    (hf : Collects before middle first) (hs : Collects middle after second) :
    Collects before after (first ++ second) := by
  constructor
  · rw [hs.1, hf.1, hf.2, List.take_append, List.reverse_append, List.append_assoc]
  · rw [hs.2, hf.2, List.length_append]
    omega

namespace Problem

variable {problem : Problem}

/-- Whether a candidate is not in use and fits. -/
def admits (problem : Problem) (unknown : String) (binding : Binding) (candidate : String) : Bool :=
  !binding.values.contains candidate && problem.fits binding unknown candidate

/-- Every way to extend a binding to the variables of a list, in the order of the candidates. -/
def completions (problem : Problem) : List String → Binding → List Binding
  | [], binding => [binding]
  | unknown :: rest, binding =>
    (problem.pool.filter (problem.admits unknown binding)).flatMap fun candidate =>
      problem.completions rest (binding.insert unknown candidate)

/-- Trying candidates collects what each admitted one leads to. -/
theorem tryEach_collects {unknown : String} {binding : Binding}
    {next : Binding → Progress → Option Progress} {results : Binding → List Binding}
    (hnext : ∀ binding before after, next binding before = some after → before.wanted ≠ 0 →
      Collects before after (results binding))
    {candidates : List String} {before after : Progress}
    (h : problem.tryEach unknown binding next candidates before = some after) :
    Collects before after ((candidates.filter (problem.admits unknown binding)).flatMap
      fun candidate => results (binding.insert unknown candidate)) := by
  induction candidates generalizing before with
  | nil =>
    cases h
    exact .nil _
  | cons candidate rest ih =>
    rw [tryEach] at h
    split at h
    next hw =>
      cases h
      exact .of_wanted hw _
    next hw =>
      split at h
      next used =>
        rw [List.filter_cons_of_neg (by rw [admits, used]; simp)]
        exact ih h
      next unused =>
        cases hl : before.stepsLeft with
        | zero =>
          simp only [hl] at h
          cases h
        | succ left =>
          simp only [hl] at h
          rw [Bool.not_eq_true] at unused
          split at h
          next hfits =>
            rw [List.filter_cons_of_pos (by rw [admits, unused, hfits]; rfl), List.flatMap_cons]
            split at h
            next middle hm =>
              have hstep : Collects before middle (results (binding.insert unknown candidate)) :=
                hnext _ { before with stepsLeft := left } _ hm hw
              exact hstep.append (ih h)
            next => cases h
          next hfits =>
            rw [List.filter_cons_of_neg (by rw [admits, unused]; simpa using hfits)]
            have hrest := ih h
            exact hrest

/-- A search that comes to its end collects the completions. -/
theorem extend_collects {unknowns : List String} {binding : Binding} {before after : Progress}
    (h : problem.extend unknowns binding before = some after) (hw : before.wanted ≠ 0) :
    Collects before after (problem.completions unknowns binding) := by
  induction unknowns generalizing binding before after with
  | nil =>
    cases h
    constructor
    · rw [completions, List.take_of_length_le (by simp; omega)]
      rfl
    · rfl
  | cons unknown rest ih =>
    have hnext : ∀ binding before after, problem.extend rest binding before = some after →
        before.wanted ≠ 0 → Collects before after (problem.completions rest binding) :=
      fun _ _ _ hr hw => ih hr hw
    exact tryEach_collects hnext h

/-- Trying candidates comes to its end when it has steps for each of them and for what follows. -/
theorem tryEach_of_ample {unknown : String} {binding : Binding} {bound : Nat}
    {next : Binding → Progress → Option Progress}
    (hnext : ∀ binding before, bound ≤ before.stepsLeft → ∃ after, next binding before = some after ∧
      before.stepsLeft ≤ after.stepsLeft + bound)
    {candidates : List String} {before : Progress}
    (h : candidates.length * (bound + 1) ≤ before.stepsLeft) :
    ∃ after, problem.tryEach unknown binding next candidates before = some after ∧
      before.stepsLeft ≤ after.stepsLeft + candidates.length * (bound + 1) := by
  induction candidates generalizing before with
  | nil => exact ⟨before, rfl, Nat.le_add_right _ _⟩
  | cons candidate rest ih =>
    rw [List.length_cons, Nat.succ_mul] at h ⊢
    rw [tryEach]
    split
    next => exact ⟨before, rfl, by omega⟩
    next =>
      split
      next =>
        obtain ⟨after, ha, hs⟩ := @ih before (by omega)
        exact ⟨after, ha, by omega⟩
      next =>
        obtain ⟨left, hl⟩ : ∃ left, before.stepsLeft = left + 1 :=
          ⟨before.stepsLeft - 1, by omega⟩
        simp only [hl]
        split
        next =>
          have hleft : bound ≤ ({ before with stepsLeft := left } : Progress).stepsLeft := by
            simp only
            omega
          obtain ⟨middle, hm, hs⟩ := hnext (binding.insert unknown candidate) _ hleft
          simp only at hs
          obtain ⟨after, ha, hs'⟩ := @ih middle (by omega)
          rw [hm]
          exact ⟨after, ha, by omega⟩
        next =>
          have hleft : rest.length * (bound + 1) ≤
              ({ before with stepsLeft := left } : Progress).stepsLeft := by
            simp only
            omega
          obtain ⟨after, ha, hs⟩ := ih hleft
          simp only at hs
          exact ⟨after, ha, by omega⟩

/-- A search with enough steps comes to its end. -/
theorem extend_of_ample (problem : Problem) (unknowns : List String) :
    ∃ bound, ∀ binding before, bound ≤ before.stepsLeft →
      ∃ after, problem.extend unknowns binding before = some after ∧
        before.stepsLeft ≤ after.stepsLeft + bound := by
  induction unknowns with
  | nil => exact ⟨0, fun binding before _ => ⟨before.record binding, rfl, Nat.le_refl _⟩⟩
  | cons unknown rest ih =>
    obtain ⟨bound, hbound⟩ := ih
    exact ⟨problem.pool.length * (bound + 1), fun _ _ h => tryEach_of_ample hbound h⟩

/-- Behind the keys of a binding, further unknowns in increasing order stay in increasing order. -/
theorem ascending_insert {binding : Binding} {unknown : String} {rest : List String}
    (ha : (binding.keys ++ unknown :: rest).Pairwise (· < ·)) (candidate : String) :
    (binding.insert unknown candidate).keys = binding.keys ++ [unknown] ∧
      (binding.insert unknown candidate).values = binding.values ++ [candidate] ∧
      ((binding.insert unknown candidate).keys ++ rest).Pairwise (· < ·) := by
  have hlast : ∀ other ∈ binding.keys, other < unknown := fun other ho =>
    (List.pairwise_append.mp ha).2.2 other ho unknown List.mem_cons_self
  refine ⟨Dict.keys_insert_last hlast, Dict.values_insert_last hlast, ?_⟩
  rw [Dict.keys_insert_last hlast, List.append_assoc]
  exact ha

/-- A completion keeps the bound concepts in front. -/
theorem values_of_mem_completions {unknowns : List String} {binding result : Binding}
    (ha : (binding.keys ++ unknowns).Pairwise (· < ·))
    (h : result ∈ problem.completions unknowns binding) :
    ∃ bound, result.values = binding.values ++ bound := by
  induction unknowns generalizing binding with
  | nil =>
    rw [completions, List.mem_singleton] at h
    exact ⟨[], by rw [h, List.append_nil]⟩
  | cons unknown rest ih =>
    rw [completions, List.mem_flatMap] at h
    obtain ⟨candidate, -, hr⟩ := h
    obtain ⟨-, hv, ha'⟩ := ascending_insert ha candidate
    obtain ⟨bound, hb⟩ := ih ha' hr
    exact ⟨candidate :: bound, by rw [hb, hv, List.append_assoc, List.singleton_append]⟩

/-- Completions come in the lexicographic order of the bound concepts. -/
theorem completions_ascending {unknowns : List String} {binding : Binding}
    (hp : problem.pool.Pairwise (· < ·)) (ha : (binding.keys ++ unknowns).Pairwise (· < ·)) :
    (problem.completions unknowns binding).Pairwise
      fun first second => first.values < second.values := by
  induction unknowns generalizing binding with
  | nil => exact List.pairwise_singleton _ _
  | cons unknown rest ih =>
    rw [completions, List.pairwise_flatMap]
    constructor
    · intro candidate _
      exact ih (ascending_insert ha candidate).2.2
    · refine (hp.filter _).imp fun {smaller larger} hlt first hf second hs => ?_
      obtain ⟨-, hv, ha'⟩ := ascending_insert ha smaller
      obtain ⟨-, hv', ha''⟩ := ascending_insert ha larger
      obtain ⟨bound, hb⟩ := values_of_mem_completions ha' hf
      obtain ⟨bound', hb'⟩ := values_of_mem_completions ha'' hs
      rw [hb, hb', hv, hv', List.append_assoc, List.append_assoc]
      exact List.append_left_lt (List.cons_lt_cons_iff.mpr (.inl hlt))

/-- What makes a binding a completion of another one to further unknowns. -/
structure Completes (problem : Problem) (unknowns : List String) (binding result : Binding) :
    Prop where
  /-- Just the further unknowns are bound in addition. -/
  keys_eq : result.keys = binding.keys ++ unknowns
  /-- What was bound stays bound. -/
  agrees : ∀ unknown bound, binding.get? unknown = some bound → result.get? unknown = some bound
  /-- Further unknowns are bound to candidates. -/
  pool : ∀ unknown ∈ unknowns, ∀ bound, result.get? unknown = some bound → bound ∈ problem.pool
  /-- A further unknown shares its bound concept with no other unknown. -/
  apart : ∀ unknown ∈ unknowns, ∀ other bound, result.get? unknown = some bound →
    result.get? other = some bound → other = unknown
  /-- The demands on further unknowns are met. -/
  meets : ∀ demand ∈ problem.demands, demand.source ∈ unknowns ∨ demand.target ∈ unknowns →
    problem.facts.holds (result.resolveTriple demand) = true

/-- What holds at each level of a search, where some unknowns are bound and others follow. -/
structure Orderly (problem : Problem) (unknowns : List String) (binding : Binding) : Prop where
  /-- Unknowns are bound in increasing order. -/
  ascending : (binding.keys ++ unknowns).Pairwise (· < ·)
  /-- Demands are on known concepts and on these unknowns. -/
  ends : ∀ demand ∈ problem.demands, ∀ id ∈ [demand.source, demand.target],
    id ∈ problem.known ∨ id ∈ binding.keys ++ unknowns
  /-- No unknown is known. -/
  unbound : ∀ known ∈ problem.known, known ∉ binding.keys ++ unknowns

/-- Binding the next unknown leaves the same unknowns in the same order. -/
theorem Orderly.keys_append {unknown : String} {rest : List String} {binding : Binding}
    (ho : problem.Orderly (unknown :: rest) binding) (candidate : String) :
    (binding.insert unknown candidate).keys ++ rest = binding.keys ++ unknown :: rest := by
  rw [(ascending_insert ho.ascending candidate).1, List.append_assoc, List.singleton_append]

/-- Binding the next unknown leads to the next level. -/
theorem Orderly.next {unknown : String} {rest : List String} {binding : Binding}
    (ho : problem.Orderly (unknown :: rest) binding) (candidate : String) :
    problem.Orderly rest (binding.insert unknown candidate) where
  ascending := (ascending_insert ho.ascending candidate).2.2
  ends := by
    rw [ho.keys_append]
    exact ho.ends
  unbound := by
    rw [ho.keys_append]
    exact ho.unbound

/-- The next unknown is free. -/
theorem Orderly.get?_next {unknown : String} {rest : List String} {binding : Binding}
    (ho : problem.Orderly (unknown :: rest) binding) : binding.get? unknown = none := by
  refine Dict.get?_eq_none.mpr fun hc => ?_
  have hlt := (List.pairwise_append.mp ho.ascending).2.2 unknown (Dict.mem_keys.mpr hc) unknown
    List.mem_cons_self
  exact String.lt_irrefl unknown hlt

/-- A result that binds just the unknowns of a level binds no known concept. -/
theorem Orderly.get?_known {unknowns : List String} {binding result : Binding}
    (ho : problem.Orderly unknowns binding) (hkeys : result.keys = binding.keys ++ unknowns) :
    ∀ known ∈ problem.known, result.get? known = none := by
  intro known hknown
  refine Dict.get?_eq_none.mpr fun hc => ho.unbound known hknown ?_
  rw [← hkeys]
  exact Dict.mem_keys.mpr hc

/-- While an unknown is tried, an end that is known stands for what it stands for in the end. -/
theorem endpoint?_eq_some {binding result : Binding} {unknown candidate id endpoint : String}
    (hk : ∀ known ∈ problem.known, result.get? known = none)
    (hr : ∀ key bound, (binding.insert unknown candidate).get? key = some bound →
      result.get? key = some bound)
    (h : problem.endpoint? binding unknown candidate id = some endpoint) :
    result.resolve id = endpoint := by
  unfold endpoint? at h
  unfold Binding.resolve
  split at h
  next same =>
    rw [hr id candidate (by rw [Dict.get?_insert, if_pos same.symm])]
    exact Option.some.inj h
  next other =>
    split at h
    next hmem =>
      rw [hk id (List.contains_iff_mem.mp hmem)]
      exact Option.some.inj h
    next =>
      rw [hr id endpoint (by rw [Dict.get?_insert, if_neg (Ne.symm other), h])]
      rfl

/-- An end that is known, bound or tried is not free. -/
theorem endpoint?_ne_none {binding : Binding} {unknown candidate id : String}
    (h : id ∈ problem.known ∨ id ∈ binding.keys ∨ id = unknown) :
    problem.endpoint? binding unknown candidate id ≠ none := by
  unfold endpoint?
  split
  next => exact Option.some_ne_none _
  next other =>
    split
    next => exact Option.some_ne_none _
    next hmem =>
      rcases h with h | h | h
      · exact absurd (List.contains_iff_mem.mpr h) hmem
      · obtain ⟨bound, hb⟩ := Dict.contains_iff.mp (Dict.mem_keys.mp h)
        rw [hb]
        exact Option.some_ne_none _
      · exact absurd h other

section Fitting

variable {triples : List Triple} (hf : problem.facts = .ofTriples triples)
include hf

/-- What the data says supports each of its ends alone, so that pruning loses nothing. -/
theorem supports_of_holds {type source target : String} {first second : Option String}
    (hs : ∀ endpoint, first = some endpoint → source = endpoint)
    (ht : ∀ endpoint, second = some endpoint → target = endpoint)
    (h : problem.facts.holds ⟨source, type, target⟩ = true) :
    problem.supports type first second = true := by
  rw [hf, Facts.holds_ofTriples] at h
  unfold supports
  rw [hf]
  cases first with
  | none =>
    cases second with
    | none => rfl
    | some endpoint =>
      rw [← ht endpoint rfl, Facts.enters_ofTriples]
      exact ⟨source, h⟩
  | some endpoint =>
    rw [← hs endpoint rfl]
    cases second with
    | none =>
      rw [Facts.leaves_ofTriples]
      exact ⟨target, h⟩
    | some endpoint =>
      rw [← ht endpoint rfl, Facts.holds_ofTriples]
      exact h

omit hf in
/-- With both ends known, support is what the data says. -/
theorem holds_of_supports {type source target : String} {first second : Option String}
    (hs : ∀ endpoint, first = some endpoint → source = endpoint) (hs' : first ≠ none)
    (ht : ∀ endpoint, second = some endpoint → target = endpoint) (ht' : second ≠ none)
    (h : problem.supports type first second = true) :
    problem.facts.holds ⟨source, type, target⟩ = true := by
  obtain ⟨start, rfl⟩ := Option.ne_none_iff_exists'.mp hs'
  obtain ⟨stop, rfl⟩ := Option.ne_none_iff_exists'.mp ht'
  rw [hs start rfl, ht stop rfl]
  exact h

/-- The demands on an unknown and those after it are met when the bound candidate fits and the demands
on those after it are met. -/
theorem meets_cons_iff {unknown candidate : String} {rest : List String} {binding result : Binding}
    (ho : problem.Orderly (unknown :: rest) binding)
    (hkeys : result.keys = binding.keys ++ unknown :: rest)
    (hr : ∀ key bound, (binding.insert unknown candidate).get? key = some bound →
      result.get? key = some bound) :
    (∀ demand ∈ problem.demands,
        demand.source ∈ unknown :: rest ∨ demand.target ∈ unknown :: rest →
        problem.facts.holds (result.resolveTriple demand) = true) ↔
      problem.fits binding unknown candidate = true ∧
      ∀ demand ∈ problem.demands, demand.source ∈ rest ∨ demand.target ∈ rest →
        problem.facts.holds (result.resolveTriple demand) = true := by
  have hk := ho.get?_known hkeys
  constructor
  · intro h
    refine ⟨List.all_eq_true.mpr fun demand hdemand => ?_, fun demand hdemand hrest => ?_⟩
    · split
      next touches =>
        refine supports_of_holds hf (fun _ => endpoint?_eq_some hk hr)
          (fun _ => endpoint?_eq_some hk hr) (h demand hdemand ?_)
        rcases Bool.or_eq_true_iff.mp touches with hs | ht
        · exact .inl (List.mem_cons.mpr (.inl (of_decide_eq_true hs)))
        · exact .inr (List.mem_cons.mpr (.inl (of_decide_eq_true ht)))
      next => rfl
    · exact h demand hdemand (hrest.imp (List.mem_cons_of_mem _) (List.mem_cons_of_mem _))
  · rintro ⟨hfits, hrest⟩ demand hdemand htouch
    by_cases later : demand.source ∈ rest ∨ demand.target ∈ rest
    · exact hrest demand hdemand later
    · -- Both ends are settled by now, so the check was made in full.
      rw [not_or] at later
      have hbound : ∀ id ∈ [demand.source, demand.target], id ∉ rest →
          id ∈ problem.known ∨ id ∈ binding.keys ∨ id = unknown := by
        intro id hid hnot
        have hmem := ho.ends demand hdemand id hid
        simp only [List.mem_append, List.mem_cons] at hmem
        tauto
      have hone := List.all_eq_true.mp hfits demand hdemand
      have htouches : (decide (demand.source = unknown) || decide (demand.target = unknown)) = true := by
        simp only [List.mem_cons] at htouch
        simp only [Bool.or_eq_true, decide_eq_true_eq]
        tauto
      rw [if_pos htouches] at hone
      exact holds_of_supports (fun _ => endpoint?_eq_some hk hr)
        (endpoint?_ne_none (hbound _ List.mem_cons_self later.1))
        (fun _ => endpoint?_eq_some hk hr)
        (endpoint?_ne_none (hbound _ (List.mem_cons_of_mem _ List.mem_cons_self) later.2)) hone

/-- Completing a binding in which an admitted candidate was bound completes the binding before. -/
theorem Completes.of_next {unknown candidate : String} {rest : List String}
    {binding result : Binding} (ho : problem.Orderly (unknown :: rest) binding)
    (hpool : candidate ∈ problem.pool) (hadmits : problem.admits unknown binding candidate = true)
    (h : problem.Completes rest (binding.insert unknown candidate) result) :
    problem.Completes (unknown :: rest) binding result := by
  obtain ⟨hunused, hfits⟩ := Bool.and_eq_true_iff.mp hadmits
  have hkeys := h.keys_eq.trans (ho.keys_append candidate)
  have htried : result.get? unknown = some candidate :=
    h.agrees unknown candidate (by rw [Dict.get?_insert, if_pos rfl])
  have hold : ∀ key bound, binding.get? key = some bound → result.get? key = some bound := by
    intro key bound hb
    refine h.agrees key bound ?_
    rw [Dict.get?_insert, if_neg, hb]
    rintro rfl
    rw [ho.get?_next] at hb
    cases hb
  -- Whatever shares the candidate was bound before, where it was in use, or is bound after it.
  have hshared : ∀ other, result.get? other = some candidate → other = unknown := by
    intro other hother
    have hmem : other ∈ binding.keys ++ unknown :: rest := by
      rw [← hkeys]
      exact Dict.mem_keys.mpr (Dict.contains_of_get? hother)
    rcases List.mem_append.mp hmem with hmem | hmem
    · obtain ⟨value, hv⟩ := Dict.contains_iff.mp (Dict.mem_keys.mp hmem)
      have hsame := (hold other value hv).symm.trans hother
      rw [Option.some.inj hsame] at hv
      rw [List.contains_iff_mem.mpr (Dict.mem_values.mpr ⟨other, hv⟩)] at hunused
      cases hunused
    · rcases List.mem_cons.mp hmem with rfl | hmem
      · rfl
      · exact (h.apart other hmem unknown candidate hother htried).symm
  refine ⟨hkeys, hold, ?_, ?_, (meets_cons_iff hf ho hkeys h.agrees).mpr ⟨hfits, h.meets⟩⟩
  · intro key hkey bound hb
    rcases List.mem_cons.mp hkey with rfl | hkey
    · rw [htried] at hb
      exact Option.some.inj hb ▸ hpool
    · exact h.pool key hkey bound hb
  · intro key hkey other bound hb hother
    rcases List.mem_cons.mp hkey with rfl | hkey
    · rw [htried] at hb
      exact hshared other (hb ▸ hother)
    · exact h.apart key hkey other bound hb hother

/-- A completion binds the next unknown to an admitted candidate and completes what that leads to. -/
theorem Completes.next {unknown : String} {rest : List String} {binding result : Binding}
    (ho : problem.Orderly (unknown :: rest) binding)
    (h : problem.Completes (unknown :: rest) binding result) :
    ∃ candidate ∈ problem.pool, problem.admits unknown binding candidate = true ∧
      problem.Completes rest (binding.insert unknown candidate) result := by
  have hmem : unknown ∈ result.keys := by
    rw [h.keys_eq]
    exact List.mem_append_right _ List.mem_cons_self
  obtain ⟨candidate, htried⟩ := Dict.contains_iff.mp (Dict.mem_keys.mp hmem)
  have hagrees : ∀ key bound, (binding.insert unknown candidate).get? key = some bound →
      result.get? key = some bound := by
    intro key bound hb
    rw [Dict.get?_insert] at hb
    split at hb
    next same => rw [← same, htried, hb]
    next => exact h.agrees key bound hb
  obtain ⟨hfits, hmeets⟩ := (meets_cons_iff hf ho h.keys_eq hagrees).mp h.meets
  have hunused : binding.values.contains candidate = false := by
    rw [Bool.eq_false_iff]
    intro hc
    obtain ⟨key, hb⟩ := Dict.mem_values.mp (List.contains_iff_mem.mp hc)
    have hsame := h.apart unknown List.mem_cons_self key candidate htried
      (h.agrees key candidate hb)
    rw [hsame, ho.get?_next] at hb
    cases hb
  refine ⟨candidate, h.pool unknown List.mem_cons_self candidate htried, ?_, ?_⟩
  · rw [admits, hunused, hfits]
    rfl
  · exact ⟨h.keys_eq.trans (ho.keys_append candidate).symm, hagrees,
      fun key hkey => h.pool key (List.mem_cons_of_mem _ hkey),
      fun key hkey => h.apart key (List.mem_cons_of_mem _ hkey), hmeets⟩

omit hf in
/-- With no unknown left a binding is its only completion. -/
theorem completes_nil_iff {binding result : Binding} :
    problem.Completes [] binding result ↔ result = binding := by
  constructor
  · intro h
    ext unknown bound
    constructor
    · intro hb
      have hmem : unknown ∈ binding.keys := by
        rw [← List.append_nil binding.keys, ← h.keys_eq]
        exact Dict.mem_keys.mpr (Dict.contains_of_get? hb)
      obtain ⟨other, hother⟩ := Dict.contains_iff.mp (Dict.mem_keys.mp hmem)
      rwa [← hb, h.agrees unknown other hother]
    · exact h.agrees unknown bound
  · rintro rfl
    exact ⟨(List.append_nil _).symm, fun _ _ h => h, nofun, nofun, by simp⟩

/-- The ways to complete a binding that are listed are just its completions. -/
theorem mem_completions_iff {unknowns : List String} {binding result : Binding}
    (ho : problem.Orderly unknowns binding) :
    result ∈ problem.completions unknowns binding ↔
      problem.Completes unknowns binding result := by
  induction unknowns generalizing binding with
  | nil => rw [completions, List.mem_singleton, completes_nil_iff]
  | cons unknown rest ih =>
    simp only [completions, List.mem_flatMap, List.mem_filter]
    constructor
    · rintro ⟨candidate, ⟨hpool, hadmits⟩, hr⟩
      exact ((ih (ho.next candidate)).mp hr).of_next hf ho hpool hadmits
    · intro h
      obtain ⟨candidate, hpool, hadmits, hr⟩ := h.next hf ho
      exact ⟨candidate, ⟨hpool, hadmits⟩, (ih (ho.next candidate)).mpr hr⟩

end Fitting

end Problem

end KnowledgeGraph.Matching
