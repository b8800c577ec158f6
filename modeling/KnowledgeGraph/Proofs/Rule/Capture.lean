import KnowledgeGraph.Proofs.Rule.Resolution

/-!
# Replacements one after the other

Grounding replaces one concept after the other in one graph, so what a pair puts in is replaced in turn
if it has the id of a concept that a later pair replaces. The result is the conclusion with every name
followed to where it lands. A name that is not replaced twice lands on what its own source is bound to;
for others this fails. Main statements: `conclude_renames`, `not_says_of_captured_shop`.
-/

namespace KnowledgeGraph

namespace Rule

open Matching (matchesType)

variable {rule : Rule} {matched g g' memory result : Graph} {limits : SearchLimits}
  {found : List Binding} {binding : Binding} {bound : String → String} {id : String} {triple : Triple}
  {pairs rest : List (String × String)}

/-- Where a name ends up when the concepts that pairs name are replaced, one after the other, by what
their sources are bound to. -/
def landing (bound : String → String) : List (String × String) → String → String
  | [], id => id
  | (source, placeholder) :: rest, id =>
    landing bound rest (if id = placeholder then bound source else id)

/-- What the first pair that names a concept puts in is named by a later pair. -/
def Captured (bound : String → String) : List (String × String) → String → Prop
  | [], _ => False
  | (source, placeholder) :: rest, id =>
    if id = placeholder then bound source ∈ rest.map (·.2) else Captured bound rest id

instance instDecidableCaptured (bound : String → String) :
    ∀ pairs id, Decidable (Captured bound pairs id)
  | [], _ => inferInstanceAs (Decidable False)
  | (source, placeholder) :: rest, id =>
    have := instDecidableCaptured bound rest id
    inferInstanceAs (Decidable
      (if id = placeholder then bound source ∈ rest.map (·.2) else Captured bound rest id))

/-- A name that no pair names stays where it is. -/
theorem landing_of_not_mem (h : id ∉ pairs.map (·.2)) : landing bound pairs id = id := by
  induction pairs with
  | nil => rfl
  | cons pair rest ih =>
    rw [List.map_cons, List.mem_cons, not_or] at h
    rw [landing, if_neg h.1]
    exact ih h.2

/-- A name that is not captured lands on what the source of the first pair for it is bound to. -/
theorem landing_of_not_captured (h : ¬Captured bound pairs id) :
    landing bound pairs id =
      ((pairs.find? fun pair => pair.2 = id).map fun pair => bound pair.1).getD id := by
  induction pairs with
  | nil => rfl
  | cons pair rest ih =>
    obtain ⟨source, placeholder⟩ := pair
    rw [landing]
    by_cases same : id = placeholder
    · rw [Captured, if_pos same] at h
      rw [if_pos same, landing_of_not_mem h, List.find?_cons_of_pos (by simp [same])]
      rfl
    · rw [Captured, if_neg same] at h
      rw [if_neg same, ih h, List.find?_cons_of_neg (by simpa using Ne.symm same)]

/-- Further replacements follow those that were made. -/
theorem Replaces.append {middle : Graph} (h : Replaces matched g pairs middle)
    (hrest : Replaces matched middle rest g') : Replaces matched g (pairs ++ rest) g' := by
  induction h with
  | done g => exact hrest
  | absent habsent _ ih => exact .absent habsent (ih hrest)
  | present hr hs _ ih => exact .present hr hs (ih hrest)

/-- Replacing concepts one after the other moves each name to where it lands. -/
theorem Replaces.hasConcept_iff (h : Replaces matched g pairs g')
    (hb : ∀ pair ∈ pairs, ∀ concept, resolved matched pair.1 = .ok concept →
      concept.id = bound pair.1) :
    g'.hasConcept id = true ↔
      ∃ before, g.hasConcept before = true ∧ landing bound pairs before = id := by
  induction h with
  | done g => simp [landing]
  | @absent g g' source placeholder rest habsent _ ih =>
    obtain ⟨-, hrest⟩ := List.forall_mem_cons.mp hb
    rw [ih hrest]
    refine exists_congr fun before => and_congr_right fun hc => ?_
    rw [landing, if_neg fun same : before = placeholder => habsent (same ▸ hc)]
  | @present g next g' source placeholder rest concept hr hs _ ih =>
    obtain ⟨hfirst, hrest⟩ := List.forall_mem_cons.mp hb
    rw [ih hrest]
    simp only [Graph.hasConcept_iff_of_substitute hs, hfirst concept hr, landing]
    constructor
    · rintro ⟨_, ⟨before, hc, rfl⟩, hl⟩
      exact ⟨before, hc, hl⟩
    · rintro ⟨before, hc, hl⟩
      exact ⟨_, ⟨before, hc, rfl⟩, hl⟩

/-- Replacing concepts one after the other renames the ends of each triple to where they land. -/
theorem Replaces.says_iff (h : Replaces matched g pairs g') (hg : g.WellFormed)
    (hb : ∀ pair ∈ pairs, ∀ concept, resolved matched pair.1 = .ok concept →
      concept.id = bound pair.1) :
    g'.Says triple ↔ ∃ before, g.Says before ∧ before.renamed (landing bound pairs) = triple := by
  induction h with
  | done g => exact ⟨fun hsaid => ⟨triple, hsaid, rfl⟩, fun ⟨_, hsaid, heq⟩ => heq ▸ hsaid⟩
  | @absent g g' source placeholder rest habsent _ ih =>
    obtain ⟨-, hrest⟩ := List.forall_mem_cons.mp hb
    rw [ih hg hrest]
    refine exists_congr fun before => and_congr_right fun hsaid => ?_
    obtain ⟨hsource, htarget⟩ := hg.ends_of_says hsaid
    have hs : before.source ≠ placeholder := fun same => habsent (same ▸ hsource)
    have ht : before.target ≠ placeholder := fun same => habsent (same ▸ htarget)
    simp only [Triple.renamed, landing, if_neg hs, if_neg ht]
  | @present g next g' source placeholder rest concept hr hs _ ih =>
    obtain ⟨hfirst, hrest⟩ := List.forall_mem_cons.mp hb
    rw [ih (hg.substitute hs) hrest]
    simp only [hg.says_iff_of_substitute hs, hfirst concept hr]
    constructor
    · rintro ⟨_, ⟨before, hsaid, rfl⟩, rfl⟩
      exact ⟨before, hsaid, rfl⟩
    · rintro ⟨before, hsaid, rfl⟩
      exact ⟨_, ⟨before, hsaid, rfl⟩, rfl⟩

/-- Every replacement of a rule starts at a concept of its hypothesis. -/
theorem hasConcept_of_replacements {root : String} {hypothesis conclusion : Graph}
    {relations : List Relation} (h : replacements root hypothesis conclusion relations = .ok pairs) :
    ∀ pair ∈ pairs, hypothesis.hasConcept pair.1 = true := by
  induction relations generalizing pairs with
  | nil =>
    cases h
    nofun
  | cons relation rest ih =>
    rw [replacements] at h
    split at h
    next => exact ih h
    next =>
      split at h
      next => cases h
      next hsource =>
        obtain ⟨others, ho, h⟩ := exists_of_bind_eq_ok h
        cases h
        exact List.forall_mem_cons.mpr ⟨by simpa using hsource, ih ho⟩

/-- The sources of a rule's replacements are concepts of its hypothesis. -/
theorem hasConcept_of_becomes (h : ofGraph g = .ok rule) :
    ∀ pair ∈ rule.becomes, rule.hypothesis.hasConcept pair.1 = true := by
  have hsplit := eq_ok_of_mapError h
  unfold split at hsplit
  obtain ⟨root, -, hsplit⟩ := exists_of_bind_eq_ok hsplit
  split at hsplit
  next => cases hsplit
  next =>
    obtain ⟨becomes, hb, hsplit⟩ := exists_of_bind_eq_ok hsplit
    cases hsplit
    exact hasConcept_of_replacements hb

/-- The replacements that a rule makes for a binding, in their order: those of the placeholders, then
those of the unknowns of the hypothesis that are left in the conclusion. -/
def passes (rule : Rule) (bound : String → String) : List (String × String) :=
  let left := rule.conclusion.concepts.keys.map (landing bound rule.becomes)
  rule.becomes ++ (rule.hypothesis.unknownIds.filter fun id => left.contains id).map fun id => (id, id)

/-- What a concept of the conclusion is meant to become: what its source is bound to, or itself if it has
none. -/
def meant (rule : Rule) (bound : String → String) (id : String) : String :=
  ((rule.sourceOf? id).map bound).getD id

/-- A concept of the conclusion that is not captured lands where it is meant to. -/
theorem landing_passes (hc : rule.conclusion.hasConcept id = true)
    (h : ¬Captured bound (rule.passes bound) id) :
    landing bound (rule.passes bound) id = rule.meant bound id := by
  rw [landing_of_not_captured h, passes, meant, sourceOf?, if_pos hc, List.find?_append]
  cases hfind : rule.becomes.find? fun pair => pair.2 = id with
  | some pair => rfl
  | none =>
    have hnot : id ∉ rule.becomes.map (·.2) := by
      rintro hm
      obtain ⟨pair, hp, hid⟩ := List.mem_map.mp hm
      exact absurd hid (by simpa using List.find?_eq_none.mp hfind pair hp)
    have hleft : (rule.conclusion.concepts.keys.map (landing bound rule.becomes)).contains id = true := by
      rw [List.contains_iff_mem]
      exact List.mem_map.mpr ⟨id, Dict.mem_keys.mpr hc, landing_of_not_mem hnot⟩
    rw [Option.none_or, find?_diagonal]
    simp only [List.mem_filter, hleft, and_true]
    split <;> rfl

/-- Grounding makes the replacements of a rule for what the match says its concepts are bound to. -/
theorem replaces_passes (hbecomes : ∀ pair ∈ rule.becomes, ∀ concept,
      resolved matched pair.1 = .ok concept → concept.id = bound pair.1)
    (hg : rule.ground matched = .ok result) :
    Replaces matched rule.conclusion (rule.passes bound) result := by
  obtain ⟨middle, hfirst, hsecond⟩ := replaces_of_ground hg
  have hleft : ∀ id, middle.hasConcept id =
      (rule.conclusion.concepts.keys.map (landing bound rule.becomes)).contains id := by
    intro id
    rw [Bool.eq_iff_iff, hfirst.hasConcept_iff hbecomes, List.contains_iff_mem, List.mem_map]
    exact exists_congr fun before => and_congr_left fun _ => Dict.mem_keys.symm
  rw [funext hleft] at hsecond
  exact hfirst.append hsecond

/-- What a match says the replaced concepts are bound to is what the binding gives, if the hypothesis asks
for no relation of the links' type that leaves one of them or something bound to it. -/
theorem bound_of_passes (hg : g.WellFormed) (hm : memory.WellFormed) (hrule : ofGraph g = .ok rule)
    (hfound : Matching.findBindings limits rule.hypothesis memory = .ok found) (hb : binding ∈ found)
    (hplain : ∀ id, id ∈ rule.becomes.map (·.1) ∨ id ∈ rule.hypothesis.unknownIds →
      ∀ asked, rule.hypothesis.Says asked → asked.type = matchesType →
        asked.source ≠ id ∧ binding.resolve asked.source ≠ id)
    (hmatched : Matching.materialize true rule.hypothesis memory binding = .ok matched) :
    ∀ pair ∈ rule.passes binding.resolve, ∀ concept, resolved matched pair.1 = .ok concept →
      concept.id = binding.resolve pair.1 := by
  have hread : ∀ id, id ∈ rule.becomes.map (·.1) ∨ id ∈ rule.hypothesis.unknownIds →
      rule.hypothesis.hasConcept id = true → ∀ concept, resolved matched id = .ok concept →
        concept.id = binding.resolve id := by
    intro id hreplaced hid concept hr
    obtain ⟨⟨known, hknown, hresolved⟩, -⟩ := resolved_of_findBindings hg hm hrule hfound hb hmatched
      hid (hplain id hreplaced)
    rw [hr] at hresolved
    cases hresolved
    exact hm.concept_id _ concept hknown
  refine List.forall_mem_append.mpr ⟨fun pair hp => ?_, List.forall_mem_map.mpr fun id hid => ?_⟩
  · exact hread pair.1 (.inl (List.mem_map_of_mem hp)) (hasConcept_of_becomes hrule pair hp)
  · have hunknown := List.mem_of_mem_filter hid
    obtain ⟨concept, hgot, -⟩ := (wellFormed_of_ofGraph hg hrule).1.mem_unknownIds.mp hunknown
    exact hread id (.inr hunknown) (Dict.contains_of_get? hgot)

/-- What a rule concludes from a binding is its conclusion with every name moved to where the
replacements, one after the other, lead it, if the hypothesis asks for no relation of the links' type that
leaves what is replaced or something bound to it. A triple of the conclusion is there as it is meant, each
end being what its own source is bound to, unless an end is captured: what it is meant to become is
replaced in turn by a later pair. -/
theorem conclude_renames (hg : g.WellFormed) (hm : memory.WellFormed) (hrule : ofGraph g = .ok rule)
    (hfound : Matching.findBindings limits rule.hypothesis memory = .ok found) (hb : binding ∈ found)
    (hplain : ∀ id, id ∈ rule.becomes.map (·.1) ∨ id ∈ rule.hypothesis.unknownIds →
      ∀ asked, rule.hypothesis.Says asked → asked.type = matchesType →
        asked.source ≠ id ∧ binding.resolve asked.source ≠ id)
    (hdone : rule.conclude memory binding = .ok result) :
    (∀ id, result.hasConcept id = true ↔ ∃ before, rule.conclusion.hasConcept before = true ∧
      landing binding.resolve (rule.passes binding.resolve) before = id) ∧
    (∀ triple, result.Says triple ↔ ∃ before, rule.conclusion.Says before ∧
      before.renamed (landing binding.resolve (rule.passes binding.resolve)) = triple) ∧
    ∀ asked, rule.conclusion.Says asked →
      ¬Captured binding.resolve (rule.passes binding.resolve) asked.source →
      ¬Captured binding.resolve (rule.passes binding.resolve) asked.target →
      result.Says (asked.renamed (rule.meant binding.resolve)) := by
  obtain ⟨matched, hmatched, hground⟩ := exists_of_bind_eq_ok hdone
  obtain ⟨-, hconclusion⟩ := wellFormed_of_ofGraph hg hrule
  have hbound := bound_of_passes hg hm hrule hfound hb hplain hmatched
  have hmade := replaces_passes (fun pair hp => hbound pair (List.mem_append_left _ hp)) hground
  have htriples := fun triple => @Replaces.says_iff _ _ _ _ triple _ hmade hconclusion hbound
  refine ⟨fun id => hmade.hasConcept_iff hbound, htriples, fun asked hasked hsource htarget => ?_⟩
  obtain ⟨hs, ht⟩ := hconclusion.ends_of_says hasked
  refine (htriples _).mpr ⟨asked, hasked, ?_⟩
  rw [Triple.renamed, landing_passes hs hsource, landing_passes ht htarget, Triple.renamed]

/-- The rule that a customer trusts the shop, where the one is who pays and the other who is paid. -/
def trust : Graph :=
  Graph.ofStatements ["trust", "?buyer", "?seller", "customer", "shop"]
    [⟨"trust", "has_hypothesis", "?buyer"⟩, ⟨"trust", "has_hypothesis", "?seller"⟩,
      ⟨"?buyer", "pays", "?seller"⟩, ⟨"?buyer", "becomes", "customer"⟩,
      ⟨"?seller", "becomes", "shop"⟩, ⟨"trust", "has_conclusion", "customer"⟩,
      ⟨"trust", "has_conclusion", "shop"⟩, ⟨"customer", "trusts", "shop"⟩]

/-- The rule taken apart. -/
def trustRule : Rule where
  root := "trust"
  hypothesis := Graph.ofStatements ["?buyer", "?seller"] [⟨"?buyer", "pays", "?seller"⟩]
  mapping := .empty
  conclusion := Graph.ofStatements ["customer", "shop"] [⟨"customer", "trusts", "shop"⟩]
  becomes := [("?buyer", "customer"), ("?seller", "shop")]

/-- One pays the other. -/
def payment (buyer seller : String) : Graph :=
  Graph.ofStatements [buyer, seller] [⟨buyer, "pays", seller⟩]

/-- Who pays and who is paid. -/
def paying (buyer seller : String) : Binding := .ofList [("?buyer", buyer), ("?seller", seller)]

/-- Ann pays somebody named like the placeholder for those who pay. It is replaced before he takes his
place, so she trusts him. -/
theorem conclude_renames_of_customer :
    ∃ result, trustRule.conclude (payment "ann" "customer") (paying "ann" "customer") = .ok result ∧
      result.Says ⟨"ann", "trusts", "customer"⟩ := by
  have hg : trust.WellFormed := Graph.wellFormed_ofStatements _ _
  have hmemory : (payment "ann" "customer").WellFormed := Graph.wellFormed_ofStatements _ _
  have hrule : ofGraph trust = .ok trustRule := by decide +kernel
  have hfound : Matching.findBindings {} trustRule.hypothesis (payment "ann" "customer") =
      .ok [paying "ann" "customer"] := by decide +kernel
  have htypes : ∀ relation ∈ trustRule.hypothesis.relationList,
      relation.triple.type ≠ matchesType := by decide
  have hplain : ∀ id, id ∈ trustRule.becomes.map (·.1) ∨ id ∈ trustRule.hypothesis.unknownIds →
      ∀ asked, trustRule.hypothesis.Says asked → asked.type = matchesType →
        asked.source ≠ id ∧ (paying "ann" "customer").resolve asked.source ≠ id := by
    rintro id - asked ⟨relation, hr, rfl⟩ htype
    exact absurd htype (htypes relation hr)
  have hok : (trustRule.conclude (payment "ann" "customer") (paying "ann" "customer")).isOk = true := by
    decide +kernel
  cases hdone : trustRule.conclude (payment "ann" "customer") (paying "ann" "customer") with
  | error fault =>
    rw [hdone] at hok
    cases hok
  | ok result =>
    obtain ⟨-, -, hmeant⟩ :=
      conclude_renames hg hmemory hrule hfound List.mem_cons_self hplain hdone
    have hsaid := hmeant ⟨"customer", "trusts", "shop"⟩ (by decide) (by decide) (by decide)
    exact ⟨result, rfl, hsaid⟩

/-- A shop that pays its landlord takes the customer's place and then gives way to the landlord, who is
said to trust himself. -/
theorem not_says_of_captured_shop :
    ¬∀ (g memory result : Graph) (rule : Rule) (limits : SearchLimits) (found : List Binding)
      (binding : Binding) (asked : Triple), g.WellFormed → memory.WellFormed →
      ofGraph g = .ok rule → (rule.becomes.map (·.2)).Nodup →
      Matching.findBindings limits rule.hypothesis memory = .ok found → binding ∈ found →
      rule.conclude memory binding = .ok result → rule.conclusion.Says asked →
      result.Says (asked.renamed (rule.meant binding.resolve)) := by
  intro hall
  have hg : trust.WellFormed := Graph.wellFormed_ofStatements _ _
  have hmemory : (payment "shop" "landlord").WellFormed := Graph.wellFormed_ofStatements _ _
  have hrule : ofGraph trust = .ok trustRule := by decide +kernel
  have hfound : Matching.findBindings {} trustRule.hypothesis (payment "shop" "landlord") =
      .ok [paying "shop" "landlord"] := by decide +kernel
  have hdone : trustRule.conclude (payment "shop" "landlord") (paying "shop" "landlord") =
      .ok (Graph.ofStatements ["landlord"] [⟨"landlord", "trusts", "landlord"⟩]) := by decide +kernel
  have hsaid := hall _ _ _ _ _ _ _ ⟨"customer", "trusts", "shop"⟩ hg hmemory hrule (by decide) hfound
    List.mem_cons_self hdone (by decide)
  exact absurd hsaid (by decide)

end Rule

end KnowledgeGraph
