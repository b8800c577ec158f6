import KnowledgeGraph.Proofs.Matching.Recording
import KnowledgeGraph.Proofs.Rule.Consequences

/-!
# What a match says a concept stands for

Grounding reads from a match what the concepts of a hypothesis stand for: the end of the first link that
leaves each of them. A match records the links of a binding among all that the hypothesis asks for, so
the concepts of the binding are read back unless the hypothesis itself asks for relations of the type
that links have.
-/

namespace KnowledgeGraph

namespace Rule

open Matching (matchesType)

variable {rule : Rule} {g memory matched query data : Graph} {binding : Binding} {found : List Binding}
  {limits : SearchLimits} {id : String}

/-- A list whose members are all one starts with it. -/
theorem head?_eq_some_of_forall {α : Type} {list : List α} {only : α} (hm : only ∈ list)
    (ho : ∀ member ∈ list, member = only) : list.head? = some only := by
  cases list with
  | nil => cases hm
  | cons head rest => exact congrArg some (ho head List.mem_cons_self)

/-- The hypothesis and the conclusion of a rule in a well-formed graph are well-formed. -/
theorem wellFormed_of_ofGraph (hg : g.WellFormed) (h : ofGraph g = .ok rule) :
    rule.hypothesis.WellFormed ∧ rule.conclusion.WellFormed := by
  have hwell : ∀ part, (rule.part part).WellFormed := by
    intro part
    rw [(splits_of_ofGraph h).part_eq]
    exact wellFormed_spanned hg _ part
  exact ⟨hwell .hypothesis, hwell .conclusion⟩

/-- A query concept is read back from a match as what it stands for, if the query asks for no relation
of the links' type that leaves it or something that stands for it. -/
theorem resolved_of_records (h : Matching.Records query data binding matched)
    (hid : query.hasConcept id = true) (hc : data.hasConcept (binding.resolve id) = true)
    (hplain : ∀ asked, query.Says asked → asked.type = matchesType →
      asked.source ≠ id ∧ binding.resolve asked.source ≠ id) :
    ∃ concept, data.concepts.get? (binding.resolve id) = some concept ∧
      resolved matched id = .ok concept := by
  have htargets : ∀ target, target ∈ matched.targetsOf id matchesType ↔ target = binding.resolve id := by
    intro target
    rw [Graph.mem_targetsOf, h.says_iff]
    constructor
    · rintro (⟨asked, hsaid, heq⟩ | hsaid | ⟨other, -, heq⟩)
      · have hsource : binding.resolve asked.source = id := congrArg Triple.source heq
        have htype : asked.type = matchesType := congrArg Triple.type heq
        exact absurd hsource (hplain asked hsaid htype).2
      · exact absurd rfl (hplain _ hsaid rfl).1
      · have hsame : other = id := congrArg Triple.source heq
        have htarget : binding.resolve other = target := congrArg Triple.target heq
        rw [← htarget, hsame]
    · rintro rfl
      exact .inr (.inr ⟨id, hid, rfl⟩)
  have hfirst : (matched.targetsOf id matchesType).head? = some (binding.resolve id) :=
    head?_eq_some_of_forall ((htargets _).mpr rfl) fun target ht => (htargets target).mp ht
  obtain ⟨concept, hg⟩ := Graph.hasConcept_iff.mp hc
  refine ⟨concept, hg, ?_⟩
  rw [resolved, hfirst]
  refine Graph.requireConcept_eq_ok.mpr ?_
  rw [h.get?_resolve id hid, hg]

/-- Whatever binding a search for the hypothesis of a rule finds, its match says of each concept of the
hypothesis that it stands for the one the binding gives, which is itself if it is known: as long as the
hypothesis asks for no relation of the links' type that leaves it or something bound to it. -/
theorem resolved_of_findBindings (hg : g.WellFormed) (hm : memory.WellFormed)
    (hrule : ofGraph g = .ok rule)
    (hfound : Matching.findBindings limits rule.hypothesis memory = .ok found) (hb : binding ∈ found)
    (hmatched : Matching.materialize true rule.hypothesis memory binding = .ok matched)
    (hid : rule.hypothesis.hasConcept id = true)
    (hplain : ∀ asked, rule.hypothesis.Says asked → asked.type = matchesType →
      asked.source ≠ id ∧ binding.resolve asked.source ≠ id) :
    (∃ concept, memory.concepts.get? (binding.resolve id) = some concept ∧
      resolved matched id = .ok concept) ∧
      (id ∈ rule.hypothesis.knownIds → binding.resolve id = id) := by
  obtain ⟨hh, -⟩ := wellFormed_of_ofGraph hg hrule
  have hembeds : Matching.Embeds rule.hypothesis memory binding :=
    (Matching.mem_embeddings_iff hh hm).mp (Matching.mem_embeddings_of_findBindings hh hm hfound hb)
  refine ⟨?_, fun hknown => Matching.resolve_known hh hembeds.keys_eq hknown⟩
  have hrecords := Matching.records_of_materialize hh hm hembeds hmatched
  exact resolved_of_records hrecords hid (hembeds.hasConcept_resolve hh hm hid) hplain

/-- The rule that what stands in a relation to something is wearable. -/
def pairing (type : String) : Graph :=
  Graph.ofStatements ["pairing", "?x", "?y", "wearable"]
    [⟨"pairing", "has_hypothesis", "?x"⟩, ⟨"pairing", "has_hypothesis", "?y"⟩, ⟨"?x", type, "?y"⟩,
      ⟨"pairing", "has_conclusion", "?x"⟩, ⟨"pairing", "has_conclusion", "wearable"⟩,
      ⟨"?x", "is", "wearable"⟩]

/-- The rule taken apart. -/
def pairingRule (type : String) : Rule where
  root := "pairing"
  hypothesis := Graph.ofStatements ["?x", "?y"] [⟨"?x", type, "?y"⟩]
  mapping := .empty
  conclusion := Graph.ofStatements ["?x", "wearable"] [⟨"?x", "is", "wearable"⟩]
  becomes := []

/-- A sock stands in the relation to a shoe. -/
def sockAndShoe (type : String) : Graph := Graph.ofStatements ["sock", "shoe"] [⟨"sock", type, "shoe"⟩]

/-- The first concept is the sock and the second one the shoe. -/
def sockFirst : Binding := .ofList [("?x", "sock"), ("?y", "shoe")]

/-- Where a sock fits a shoe, the first concept of the rule is read back as the sock. -/
theorem resolved_of_findBindings_of_fitting :
    ∃ matched, ofGraph (pairing "fits") = .ok (pairingRule "fits") ∧
      Matching.findBindings {} (pairingRule "fits").hypothesis (sockAndShoe "fits") = .ok [sockFirst] ∧
      Matching.materialize true (pairingRule "fits").hypothesis (sockAndShoe "fits") sockFirst =
        .ok matched ∧
      resolved matched "?x" = .ok (.known "sock") := by
  have hg : (pairing "fits").WellFormed := Graph.wellFormed_ofStatements _ _
  have hmemory : (sockAndShoe "fits").WellFormed := Graph.wellFormed_ofStatements _ _
  have hrule : ofGraph (pairing "fits") = .ok (pairingRule "fits") := by decide +kernel
  have hfound : Matching.findBindings {} (pairingRule "fits").hypothesis (sockAndShoe "fits") =
      .ok [sockFirst] := by decide +kernel
  have hid : (pairingRule "fits").hypothesis.hasConcept "?x" = true := by decide
  have htypes : ∀ relation ∈ (pairingRule "fits").hypothesis.relationList,
      relation.triple.type ≠ matchesType := by decide
  have hplain : ∀ asked, (pairingRule "fits").hypothesis.Says asked → asked.type = matchesType →
      asked.source ≠ "?x" ∧ sockFirst.resolve asked.source ≠ "?x" := by
    rintro asked ⟨relation, hr, rfl⟩ htype
    exact absurd htype (htypes relation hr)
  have hok : (Matching.materialize true (pairingRule "fits").hypothesis (sockAndShoe "fits")
      sockFirst).isOk = true := by decide
  cases hmatched : Matching.materialize true (pairingRule "fits").hypothesis (sockAndShoe "fits")
      sockFirst with
  | error fault =>
    rw [hmatched] at hok
    cases hok
  | ok matched =>
    obtain ⟨⟨concept, hsock, hresolved⟩, -⟩ := resolved_of_findBindings hg hmemory hrule hfound
      List.mem_cons_self hmatched hid hplain
    have hknown : (sockAndShoe "fits").concepts.get? (sockFirst.resolve "?x") =
        some (.known "sock") := by decide
    rw [hknown] at hsock
    cases hsock
    exact ⟨matched, hrule, hfound, rfl, hresolved⟩

/-- Where a sock matches a shoe and the rule asks for just that, the relation of the rule comes before
the link in the order of ids, and the first concept is read back as the second one. -/
theorem not_resolved_of_matching :
    ¬∀ (g memory matched : Graph) (rule : Rule) (limits : SearchLimits) (found : List Binding)
      (binding : Binding) (id : String), g.WellFormed → memory.WellFormed → ofGraph g = .ok rule →
      Matching.findBindings limits rule.hypothesis memory = .ok found → binding ∈ found →
      Matching.materialize true rule.hypothesis memory binding = .ok matched →
      (id ∈ rule.becomes.map (·.1) ∨
        id ∈ rule.hypothesis.unknownIds ∧ rule.conclusion.hasConcept id = true) →
      ∃ concept, memory.concepts.get? (binding.resolve id) = some concept ∧
        resolved matched id = .ok concept := by
  intro hall
  have hg : (pairing matchesType).WellFormed := Graph.wellFormed_ofStatements _ _
  have hmemory : (sockAndShoe matchesType).WellFormed := Graph.wellFormed_ofStatements _ _
  have hrule : ofGraph (pairing matchesType) = .ok (pairingRule matchesType) := by decide +kernel
  have hfound : Matching.findBindings {} (pairingRule matchesType).hypothesis
      (sockAndShoe matchesType) = .ok [sockFirst] := by decide +kernel
  have hread : (Matching.materialize true (pairingRule matchesType).hypothesis
      (sockAndShoe matchesType) sockFirst >>= fun matched => resolved matched "?x") =
        .ok (.unknown "?y") := by decide
  obtain ⟨matched, hmatched, hother⟩ := exists_of_bind_eq_ok hread
  obtain ⟨concept, hsock, hresolved⟩ := hall _ _ matched _ _ _ sockFirst "?x" hg hmemory hrule hfound
    List.mem_cons_self hmatched (.inr (by decide))
  have hknown : (sockAndShoe matchesType).concepts.get? (sockFirst.resolve "?x") =
      some (.known "sock") := by decide
  rw [hknown] at hsock
  rw [hother] at hresolved
  cases hsock
  exact absurd (Except.ok.inj hresolved) (by decide)

end Rule

end KnowledgeGraph
