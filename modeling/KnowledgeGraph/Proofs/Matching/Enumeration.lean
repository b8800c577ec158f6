import KnowledgeGraph.Proofs.Graph.Saying
import KnowledgeGraph.Proofs.Matching.Embedding

/-!
# Enumeration of embeddings

The embeddings of a query in one list, in the lexicographic order of the concepts that the unknowns are
bound to, which is that of bindings. Main statement: a search answers with the front of this list, as
long as its result limit asks, or it is given up because it has tried as many candidates as it may.
-/

namespace KnowledgeGraph.Matching

/-- The embeddings of a query into data, in order. -/
def embeddings (query data : Graph) : List Binding :=
  if (Problem.ofGraphs query data).known.all data.hasConcept &&
      (Problem.ofGraphs query data).knownTriplesHold data then
    (Problem.ofGraphs query data).completions query.unknownIds .empty
  else []

variable {query data : Graph} {binding : Binding} {limits : SearchLimits}

namespace Problem

/-- Both ends of a demand are known or unknown concepts of the query. -/
theorem ends_ofGraphs (hq : query.WellFormed) :
    ∀ demand ∈ (ofGraphs query data).demands, ∀ id ∈ [demand.source, demand.target],
      id ∈ (ofGraphs query data).known ∨ id ∈ query.unknownIds := by
  intro demand hd id hid
  obtain ⟨relation, hr, rfl⟩ := List.mem_map.mp hd
  have hg := hq.mem_relationList.mp hr
  have hc : query.hasConcept id = true := by
    rcases List.mem_cons.mp hid with rfl | hid
    · exact hq.source_mem relation.id relation hg
    · rw [List.mem_singleton.mp hid]
      exact hq.target_mem relation.id relation hg
  exact hq.mem_knownIds_or hc

/-- The completions of the empty binding to all unknowns of a query. -/
theorem mem_completions_ofGraphs_iff (hq : query.WellFormed) :
    binding ∈ (ofGraphs query data).completions query.unknownIds .empty ↔
      (ofGraphs query data).Completes query.unknownIds .empty binding :=
  mem_completions_iff rfl
    ⟨hq.unknownIds_ascending, ends_ofGraphs hq, fun _ hknown => hq.not_mem_unknownIds hknown⟩

/-- The demands between known concepts are looked up one by one. -/
theorem knownTriplesHold_iff {problem : Problem} (hd : data.WellFormed) :
    problem.knownTriplesHold data = true ↔
      ∀ demand ∈ problem.demands, demand.source ∈ problem.known → demand.target ∈ problem.known →
        ∃ found ∈ data.relationList, found.triple = demand := by
  unfold knownTriplesHold
  rw [List.all_eq_true]
  refine forall₂_congr fun demand _ => ?_
  by_cases hknown : (problem.known.contains demand.source && problem.known.contains demand.target) = true
  · rw [if_pos hknown, hd.hasTriple_iff]
    simp only [Bool.and_eq_true, List.contains_iff_mem] at hknown
    exact ⟨fun h _ _ => h, fun h => h hknown.1 hknown.2⟩
  · rw [if_neg hknown]
    simp only [Bool.and_eq_true, List.contains_iff_mem, not_and] at hknown
    exact ⟨fun _ hs ht => absurd ht (hknown hs), fun _ => rfl⟩

end Problem

/-- A binding of the unknowns alone leaves known concepts what they are. -/
theorem resolve_known (hq : query.WellFormed) (hk : binding.keys = query.unknownIds) {id : String}
    (hid : id ∈ query.knownIds) : binding.resolve id = id := by
  have hn : binding.get? id = none := by
    refine Dict.get?_eq_none.mpr fun hc => hq.not_mem_unknownIds hid ?_
    rw [← hk]
    exact Dict.mem_keys.mpr hc
  rw [Binding.resolve, hn]
  rfl

/-- An embedding completes the empty binding. -/
theorem Embeds.completes (h : Embeds query data binding) :
    (Problem.ofGraphs query data).Completes query.unknownIds .empty binding where
  keys_eq := h.keys_eq
  agrees := nofun
  pool := by
    intro unknown _ bound hb
    have hfree := h.free unknown bound hb
    exact List.mem_filter.mpr ⟨h.known unknown bound hb, by simpa [Problem.ofGraphs] using hfree⟩
  apart unknown _ other bound hb ho := h.injective other unknown bound ho hb
  meets := by
    intro demand hd _
    obtain ⟨relation, hr, rfl⟩ := List.mem_map.mp hd
    obtain ⟨found, hf, ht⟩ := h.holds relation hr
    exact (Facts.holds_ofTriples _ _).mpr (List.mem_map.mpr ⟨found, hf, ht⟩)

/-- A completion of the empty binding is an embedding, if the data has the known part of the query. -/
theorem Problem.Completes.embeds (hq : query.WellFormed)
    (h : (Problem.ofGraphs query data).Completes query.unknownIds .empty binding)
    (hp : ∀ id ∈ query.knownIds, data.hasConcept id = true)
    (ht : ∀ demand ∈ (Problem.ofGraphs query data).demands, demand.source ∈ query.knownIds →
      demand.target ∈ query.knownIds → ∃ found ∈ data.relationList, found.triple = demand) :
    Embeds query data binding := by
  have hmem : ∀ unknown bound, binding.get? unknown = some bound → unknown ∈ query.unknownIds := by
    intro unknown bound hb
    have hkey := Dict.mem_keys.mpr (Dict.contains_of_get? hb)
    rwa [h.keys_eq] at hkey
  have hpool : ∀ unknown bound, binding.get? unknown = some bound →
      bound ∈ data.knownIds ∧ bound ∉ query.knownIds := by
    intro unknown bound hb
    have hin := h.pool unknown (hmem unknown bound hb) bound hb
    simpa [Problem.ofGraphs] using hin
  refine ⟨h.keys_eq, fun unknown bound hb => (hpool unknown bound hb).1,
    fun unknown bound hb => (hpool unknown bound hb).2, ?_, hp, ?_⟩
  · intro first second bound hf hs
    exact h.apart second (hmem second bound hs) first bound hs hf
  · intro relation hr
    have hdemand : relation.triple ∈ (Problem.ofGraphs query data).demands :=
      List.mem_map.mpr ⟨relation, hr, rfl⟩
    have hends := Problem.ends_ofGraphs hq relation.triple hdemand
    have hs := hends relation.triple.source List.mem_cons_self
    have ht' := hends relation.triple.target (List.mem_cons_of_mem _ List.mem_cons_self)
    by_cases free : relation.triple.source ∈ query.unknownIds ∨
        relation.triple.target ∈ query.unknownIds
    · have hholds := (Facts.holds_ofTriples _ _).mp (h.meets relation.triple hdemand free)
      exact List.mem_map.mp hholds
    · rw [not_or] at free
      have hsource := hs.resolve_right free.1
      have htarget := ht'.resolve_right free.2
      obtain ⟨found, hf, he⟩ := ht relation.triple hdemand hsource htarget
      refine ⟨found, hf, ?_⟩
      rw [Binding.resolveTriple, resolve_known hq h.keys_eq hsource,
        resolve_known hq h.keys_eq htarget, he]

/-- The list of embeddings holds the embeddings and nothing else. -/
theorem mem_embeddings_iff (hq : query.WellFormed) (hd : data.WellFormed) :
    binding ∈ embeddings query data ↔ Embeds query data binding := by
  unfold embeddings
  split
  next hguard =>
    obtain ⟨hpresent, htriples⟩ := Bool.and_eq_true_iff.mp hguard
    rw [Problem.mem_completions_ofGraphs_iff hq]
    constructor
    · intro h
      exact h.embeds hq (List.all_eq_true.mp hpresent)
        ((Problem.knownTriplesHold_iff hd).mp htriples)
    · exact Embeds.completes
  next hguard =>
    refine ⟨nofun, fun h => absurd ?_ hguard⟩
    refine Bool.and_eq_true_iff.mpr ⟨List.all_eq_true.mpr h.present, ?_⟩
    refine (Problem.knownTriplesHold_iff hd).mpr fun demand hdemand hs ht => ?_
    obtain ⟨relation, hr, rfl⟩ := List.mem_map.mp hdemand
    obtain ⟨found, hf, he⟩ := h.holds relation hr
    refine ⟨found, hf, ?_⟩
    rw [he, Binding.resolveTriple, resolve_known hq h.keys_eq hs, resolve_known hq h.keys_eq ht]

/-- Embeddings are listed in the lexicographic order of the bound concepts. -/
theorem embeddings_ascending (hq : query.WellFormed) (hd : data.WellFormed) :
    (embeddings query data).Pairwise fun first second => first.values < second.values := by
  unfold embeddings
  split
  next => exact Problem.completions_ascending (hd.knownIds_ascending.filter _) hq.unknownIds_ascending
  next => exact List.Pairwise.nil

/-- A query with more unknowns than there are candidates has no embedding. -/
theorem embeddings_eq_nil_of_pool (hq : query.WellFormed) (hd : data.WellFormed)
    (h : (Problem.ofGraphs query data).pool.length < query.unknownIds.length) :
    embeddings query data = [] := by
  refine List.eq_nil_iff_forall_not_mem.mpr fun binding hb => ?_
  have he := (mem_embeddings_iff hq hd).mp hb
  have hnodup : binding.values.Nodup := by
    refine List.Nodup.map_on ?_ (List.Nodup.of_map Prod.fst binding.keys_nodup)
    rintro ⟨first, bound⟩ hf ⟨second, other⟩ hs rfl
    rw [he.injective first second bound (Dict.mem_entries.mp hf) (Dict.mem_entries.mp hs)]
  have hsub : binding.values ⊆ (Problem.ofGraphs query data).pool := by
    intro bound hbound
    obtain ⟨unknown, hu⟩ := Dict.mem_values.mp hbound
    have hkey := Dict.mem_keys.mpr (Dict.contains_of_get? hu)
    rw [he.keys_eq] at hkey
    exact he.completes.pool unknown hkey bound hu
  have hlen := (List.subperm_of_subset hnodup hsub).length_le
  rw [Dict.length_values, he.keys_eq] at hlen
  omega

/-- A query without unknowns is embedded by the empty binding or not at all. -/
theorem embeddings_of_no_unknowns (h : query.unknownIds = []) :
    embeddings query data = [.empty] ∨ embeddings query data = [] := by
  unfold embeddings
  rw [h]
  split
  next => exact .inl rfl
  next => exact .inr rfl

/-- Whether a search is made at all: the data has the known part of the query and candidates enough. -/
def searched (query data : Graph) : Bool :=
  (Problem.ofGraphs query data).known.all data.hasConcept &&
    (Problem.ofGraphs query data).knownTriplesHold data &&
    decide (query.unknownIds.length ≤ (Problem.ofGraphs query data).pool.length)

/-- If no search is made there is no embedding. -/
theorem embeddings_of_not_searched (hq : query.WellFormed) (hd : data.WellFormed)
    (h : ¬searched query data = true) : embeddings query data = [] := by
  by_cases hpool : (Problem.ofGraphs query data).pool.length < query.unknownIds.length
  · exact embeddings_eq_nil_of_pool hq hd hpool
  · rw [searched, decide_eq_true (Nat.not_lt.mp hpool), Bool.and_true] at h
    rw [embeddings, if_neg h]

/-- A search whose limits admit the query extends the empty binding to its unknowns, unless it need not
be made. -/
theorem findBindings_of_admitted (hr : 1 ≤ limits.maxResults)
    (hu : query.unknownIds.length ≤ limits.maxUnknowns) :
    findBindings limits query data =
      if searched query data then
        match (Problem.ofGraphs query data).extend query.unknownIds .empty
          ⟨limits.maxSteps, limits.maxResults, []⟩ with
        | some progress => .ok progress.found.reverse
        | none => .error (.searchBudgetExceeded limits.maxSteps)
      else .ok [] := by
  have hcheck : limits.check = .ok () := by
    unfold SearchLimits.check
    rw [if_neg (by omega)]
  have hcount : limits.checkUnknowns query.unknownIds.length = .ok () := by
    unfold SearchLimits.checkUnknowns
    rw [if_neg (by omega)]
  unfold findBindings searched
  simp only [hcheck, hcount, Except.mapError, bind, Except.bind]
  cases (Problem.ofGraphs query data).known.all data.hasConcept with
  | false => rfl
  | true =>
    cases (Problem.ofGraphs query data).knownTriplesHold data with
    | false => rfl
    | true =>
      simp only [Bool.not_true, Bool.false_eq_true, if_false, Bool.and_self, Bool.true_and,
        decide_eq_true_eq]
      by_cases hpool : (Problem.ofGraphs query data).pool.length < query.unknownIds.length
      · rw [if_pos hpool, if_neg (Nat.not_le.mpr hpool)]
      · rw [if_neg hpool, if_pos (Nat.not_lt.mp hpool)]
        cases query.unknownIds <;> rfl

/-- A search that is made and comes to its end has found the first embeddings. -/
theorem found_of_extend (hs : searched query data = true) (hr : 1 ≤ limits.maxResults)
    {after : Progress} (h : (Problem.ofGraphs query data).extend query.unknownIds .empty
      ⟨limits.maxSteps, limits.maxResults, []⟩ = some after) :
    after.found.reverse = (embeddings query data).take limits.maxResults := by
  rw [searched, Bool.and_eq_true] at hs
  have hcollects := Problem.extend_collects h (Nat.one_le_iff_ne_zero.mp hr)
  rw [hcollects.1, List.append_nil, List.reverse_reverse, embeddings, if_pos hs.1]

/-- A search answers with the first embeddings, or it is given up when its steps are used up. -/
theorem findBindings_eq (hq : query.WellFormed) (hd : data.WellFormed)
    (hr : 1 ≤ limits.maxResults) (hu : query.unknownIds.length ≤ limits.maxUnknowns) :
    findBindings limits query data = .ok ((embeddings query data).take limits.maxResults) ∨
      findBindings limits query data = .error (.searchBudgetExceeded limits.maxSteps) ∧
        (Problem.ofGraphs query data).extend query.unknownIds .empty
          ⟨limits.maxSteps, limits.maxResults, []⟩ = none := by
  rw [findBindings_of_admitted hr hu]
  by_cases hs : searched query data = true
  · rw [if_pos hs]
    split
    next after hafter => exact .inl (congrArg Except.ok (found_of_extend hs hr hafter))
    next hnone => exact .inr ⟨rfl, hnone⟩
  · rw [if_neg hs, embeddings_of_not_searched hq hd hs, List.take_nil]
    exact .inl rfl

/-- A search that answers has a result limit and may bind the unknowns of the query. -/
theorem limits_of_findBindings {found : List Binding}
    (h : findBindings limits query data = .ok found) :
    1 ≤ limits.maxResults ∧ query.unknownIds.length ≤ limits.maxUnknowns := by
  by_contra hn
  unfold findBindings SearchLimits.check SearchLimits.checkUnknowns at h
  by_cases hr : limits.maxResults = 0
  · rw [if_pos hr] at h
    cases h
  · have hu : limits.maxUnknowns < query.unknownIds.length := by omega
    simp only [if_neg hr, if_pos hu] at h
    cases h

/-- A search answers with the front of the embeddings. -/
theorem eq_take_of_findBindings {found : List Binding} (hq : query.WellFormed)
    (hd : data.WellFormed) (h : findBindings limits query data = .ok found) :
    found = (embeddings query data).take limits.maxResults := by
  obtain ⟨hr, hu⟩ := limits_of_findBindings h
  rcases findBindings_eq hq hd hr hu with hok | ⟨herror, -⟩
  · rw [h] at hok
    exact Except.ok.inj hok
  · rw [h] at herror
    cases herror

/-- A search that does not come to its result limit answers with all embeddings. -/
theorem eq_embeddings_of_findBindings {found : List Binding} (hq : query.WellFormed)
    (hd : data.WellFormed) (h : findBindings limits query data = .ok found)
    (hn : found.length ≠ limits.maxResults) : found = embeddings query data := by
  have hfound := eq_take_of_findBindings hq hd h
  rw [hfound, List.length_take] at hn
  rw [hfound, List.take_of_length_le (by omega)]

/-- A search answers with embeddings alone. -/
theorem mem_embeddings_of_findBindings {found : List Binding} (hq : query.WellFormed)
    (hd : data.WellFormed) (h : findBindings limits query data = .ok found)
    (hb : binding ∈ found) : binding ∈ embeddings query data := by
  rw [eq_take_of_findBindings hq hd h] at hb
  exact List.mem_of_mem_take hb

/-- With limits that are large enough a search answers with all embeddings. -/
theorem findBindings_of_ample (hq : query.WellFormed) (hd : data.WellFormed) :
    ∃ bound, ∀ limits : SearchLimits, bound ≤ limits.maxUnknowns → bound ≤ limits.maxResults →
      bound ≤ limits.maxSteps → findBindings limits query data = .ok (embeddings query data) := by
  obtain ⟨steps, hsteps⟩ :=
    Problem.extend_of_ample (Problem.ofGraphs query data) query.unknownIds
  refine ⟨query.unknownIds.length + (embeddings query data).length + steps + 1,
    fun limits hu hr hs => ?_⟩
  have hresults : 1 ≤ limits.maxResults := by omega
  have hunknowns : query.unknownIds.length ≤ limits.maxUnknowns := by omega
  rcases findBindings_eq hq hd hresults hunknowns with hok | ⟨-, hnone⟩
  · rw [hok, List.take_of_length_le (by omega)]
  · have hleft : steps ≤ (⟨limits.maxSteps, limits.maxResults, []⟩ : Progress).stepsLeft := by
      simp only
      omega
    obtain ⟨after, ha, -⟩ := hsteps .empty _ hleft
    rw [ha] at hnone
    cases hnone

/-- Bindings of the same unknowns are in the order of the bound concepts. -/
theorem le_iff_not_values_lt {first second : Binding} (hk : first.keys = second.keys) :
    first.le second = true ↔ ¬second.values < first.values := by
  have aligned : ∀ as bs : List (String × String), as.map (·.1) = bs.map (·.1) →
      (Binding.entriesLe as bs = true ↔ ¬bs.map (·.2) < as.map (·.2)) := by
    intro as
    induction as with
    | nil => exact fun bs _ => ⟨fun _ => List.not_lt_nil _, fun _ => rfl⟩
    | cons head rest ih =>
      intro bs hk
      cases bs with
      | nil => cases hk
      | cons head' rest' =>
        obtain ⟨hkey, hkeys⟩ := List.cons.inj hk
        obtain ⟨key, value⟩ := head
        obtain ⟨key', value'⟩ := head'
        rw [Binding.entriesLe, if_neg (not_not_intro hkey), List.map_cons, List.map_cons,
          List.cons_lt_cons_iff]
        by_cases same : value = value'
        · rw [if_neg (not_not_intro same), ih rest' hkeys]
          subst same
          simp only [String.lt_irrefl, true_and, false_or]
        · rw [if_pos same, decide_eq_true_iff]
          simp only [Ne.symm same, false_and, or_false]
          exact ⟨String.lt_asymm, fun hn => Std.lt_of_le_of_ne (String.not_lt.mp hn) same⟩
  exact aligned first.entries second.entries hk

/-- A binding comes before another one in the order of bindings. -/
def Precedes (first second : Binding) : Prop := first.le second = true ∧ ¬second.le first = true

/-- Of two bindings of the same unknowns the one with the smaller bound concepts comes first. -/
theorem precedes_of_values_lt {first second : Binding} (hk : first.keys = second.keys)
    (hv : first.values < second.values) : Precedes first second := by
  refine ⟨(le_iff_not_values_lt hk).mpr (List.lt_asymm hv), fun hle => ?_⟩
  exact (le_iff_not_values_lt hk.symm).mp hle hv

/-- Embeddings are listed in strictly increasing order. -/
theorem embeddings_precede (hq : query.WellFormed) (hd : data.WellFormed) :
    (embeddings query data).Pairwise Precedes := by
  refine (embeddings_ascending hq hd).imp_of_mem fun {first second} hf hs hlt => ?_
  have hfirst := (mem_embeddings_iff hq hd).mp hf
  have hsecond := (mem_embeddings_iff hq hd).mp hs
  exact precedes_of_values_lt (hfirst.keys_eq.trans hsecond.keys_eq.symm) hlt

/-- What a search finds is in strictly increasing order. -/
theorem found_precede {found : List Binding} (hq : query.WellFormed) (hd : data.WellFormed)
    (h : findBindings limits query data = .ok found) : found.Pairwise Precedes := by
  rw [eq_take_of_findBindings hq hd h]
  exact (embeddings_precede hq hd).sublist (List.take_sublist _ _)

/-- Sorting leaves what a search finds as it is. -/
theorem mergeSort_found {found : List Binding} (hq : query.WellFormed) (hd : data.WellFormed)
    (h : findBindings limits query data = .ok found) : found.mergeSort Binding.le = found :=
  List.mergeSort_of_pairwise ((found_precede hq hd h).imp fun hp => hp.1)

/-- A list of bindings in the order of the bound concepts repeats none. -/
theorem nodup_of_values_ascending {list : List Binding}
    (h : list.Pairwise fun first second => first.values < second.values) : list.Nodup := by
  refine h.imp ?_
  rintro first second hlt rfl
  exact List.lt_irrefl first.values hlt

/-- Two lists of bindings in the order of the bound concepts are one if they hold the same bindings. -/
theorem eq_of_values_ascending {first second : List Binding}
    (hf : first.Pairwise fun first second => first.values < second.values)
    (hs : second.Pairwise fun first second => first.values < second.values)
    (h : ∀ binding, binding ∈ first ↔ binding ∈ second) : first = second := by
  refine List.Perm.eq_of_pairwise ?_ hf hs ?_
  · intro binding other _ _ hlt hgt
    exact absurd hgt (List.lt_asymm hlt)
  · have hnodup := nodup_of_values_ascending hf
    exact (List.perm_ext_iff_of_nodup hnodup (nodup_of_values_ascending hs)).mpr h

section Stricter

variable {stricter : Graph} {more : List Triple}

/-- A query that asks for some triples more is embedded where the data says these as well. -/
theorem embeds_iff_of_says (hc : stricter.concepts = query.concepts)
    (hs : ∀ triple, stricter.Says triple ↔ query.Says triple ∨ triple ∈ more) :
    Embeds stricter data binding ↔ Embeds query data binding ∧
      ∀ triple ∈ more, data.Says (binding.resolveTriple triple) := by
  have hunknown : stricter.unknownIds = query.unknownIds := by
    rw [Graph.unknownIds, Graph.conceptList, hc, ← Graph.conceptList, ← Graph.unknownIds]
  have hknown : stricter.knownIds = query.knownIds := by
    rw [Graph.knownIds, Graph.conceptList, hc, ← Graph.conceptList, ← Graph.knownIds]
  constructor
  · intro h
    have hholds : ∀ triple, stricter.Says triple → data.Says (binding.resolveTriple triple) := by
      rintro _ ⟨relation, hr, rfl⟩
      exact h.holds relation hr
    refine ⟨⟨hunknown ▸ h.keys_eq, h.known, hknown ▸ h.free, h.injective, hknown ▸ h.present, ?_⟩, ?_⟩
    · intro relation hr
      exact hholds relation.triple ((hs _).mpr (.inl ⟨relation, hr, rfl⟩))
    · intro triple ht
      exact hholds triple ((hs _).mpr (.inr ht))
  · rintro ⟨h, hmore⟩
    refine ⟨hunknown ▸ h.keys_eq, h.known, hknown ▸ h.free, h.injective, hknown ▸ h.present, ?_⟩
    intro relation hr
    rcases (hs _).mp ⟨relation, hr, rfl⟩ with ⟨asked, hasked, heq⟩ | hasked
    · rw [← heq]
      exact h.holds asked hasked
    · exact hmore relation.triple hasked

/-- Its embeddings are those of the query along which the data says these triples, in the same order. -/
theorem embeddings_of_says (hq : query.WellFormed) (hq' : stricter.WellFormed) (hd : data.WellFormed)
    (hc : stricter.concepts = query.concepts)
    (hs : ∀ triple, stricter.Says triple ↔ query.Says triple ∨ triple ∈ more) :
    embeddings stricter data = (embeddings query data).filter fun binding =>
      more.all fun triple => data.hasTriple (binding.resolveTriple triple) := by
  have hfiltered := (embeddings_ascending hq hd).filter fun binding =>
    more.all fun triple => data.hasTriple (binding.resolveTriple triple)
  refine eq_of_values_ascending (embeddings_ascending hq' hd) hfiltered fun binding => ?_
  rw [mem_embeddings_iff hq' hd, embeds_iff_of_says hc hs, List.mem_filter, mem_embeddings_iff hq hd,
    List.all_eq_true]
  refine and_congr_right fun _ => forall₂_congr fun triple _ => ?_
  exact hd.hasTriple_iff.symm

end Stricter

/-- The search for a query's embeddings is sound, complete and in order: there is one list of all of
them, without repetition and in the lexicographic order of the bound concepts, and a search whose
limits admit the query answers with the front of this list that is as long as the result limit, unless
it is given up when its steps are used up. -/
theorem findBindings_lists_embeddings (hq : query.WellFormed) (hd : data.WellFormed)
    (hr : 1 ≤ limits.maxResults) (hu : query.unknownIds.length ≤ limits.maxUnknowns) :
    ∃ all : List Binding,
      all.Nodup ∧
      all.Pairwise (fun first second => first.values < second.values) ∧
      (∀ binding, binding ∈ all ↔ Embeds query data binding) ∧
      (∀ found, findBindings limits query data = .ok found → found = all.take limits.maxResults) ∧
      (∀ fault, findBindings limits query data = .error fault →
        fault = .searchBudgetExceeded limits.maxSteps) ∧
      (query.unknownIds = [] → all = [.empty] ∨ all = []) := by
  have hsorted := embeddings_ascending hq hd
  have hnodup : (embeddings query data).Nodup := by
    refine hsorted.imp ?_
    rintro first second hlt rfl
    exact List.lt_irrefl first.values hlt
  refine ⟨embeddings query data, hnodup, hsorted, fun _ => mem_embeddings_iff hq hd, ?_, ?_,
    embeddings_of_no_unknowns⟩
  · intro found hfound
    rcases findBindings_eq hq hd hr hu with hok | ⟨herror, -⟩
    · rw [hfound] at hok
      exact Except.ok.inj hok
    · rw [hfound] at herror
      cases herror
  · intro fault hfault
    rcases findBindings_eq hq hd hr hu with hok | ⟨herror, -⟩
    · rw [hfault] at hok
      cases hok
    · rw [hfault] at herror
      exact Except.error.inj herror

/-- A query for two hops that end at a colour. -/
def twoHops : Graph :=
  .ofStatements ["?a", "?b", "colour"] [⟨"?a", "is", "?b"⟩, ⟨"?b", "is", "colour"⟩]

/-- Data with two hops that end at a colour and one hop that leads nowhere. -/
def colours : Graph :=
  .ofStatements ["sky", "blue", "colour", "grass", "green"]
    [⟨"sky", "is", "blue"⟩, ⟨"blue", "is", "colour"⟩, ⟨"grass", "is", "green"⟩]

/-- The first hop is taken on trust until the second one is bound, and one embedding is left. -/
theorem findBindings_lists_embeddings_of_two_hops :
    twoHops.WellFormed ∧ colours.WellFormed ∧ twoHops.unknownIds.length ≤ 16 ∧
    findBindings {} twoHops colours = .ok [Dict.ofList [("?a", "sky"), ("?b", "blue")]] ∧
    ∃ all : List Binding, (∀ binding, binding ∈ all ↔ Embeds twoHops colours binding) ∧
      [Dict.ofList [("?a", "sky"), ("?b", "blue")]] = all.take 10000 := by
  have hq : twoHops.WellFormed := Graph.wellFormed_ofStatements _ _
  have hd : colours.WellFormed := Graph.wellFormed_ofStatements _ _
  have hcount : twoHops.unknownIds.length ≤ 16 := by decide
  have hfound : findBindings {} twoHops colours =
      .ok [Dict.ofList [("?a", "sky"), ("?b", "blue")]] := by decide
  obtain ⟨all, -, -, hmem, hfront, -⟩ :=
    @findBindings_lists_embeddings twoHops colours {} hq hd (by decide) hcount
  exact ⟨hq, hd, hcount, hfound, all, hmem, hfront _ hfound⟩

end KnowledgeGraph.Matching
