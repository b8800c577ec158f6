import KnowledgeGraph.Proofs.Rule.Grounding
import KnowledgeGraph.Proofs.Rule.Splitting
import Mathlib.Data.Set.Function

/-!
# Rules that make rules

The conclusion of a rule may be a rule in turn. Grounding the outer rule renames the concepts of the inner
one. As a graph is a rule by what it says, it stays one as long as no two of its concepts come to have one
name, and its root, its parts and its replacements are renamed with it. Main statement: `ofGraph_ground`.
-/

namespace KnowledgeGraph

namespace Graph

variable {g g' : Graph} {name : String → String} {id source target type : String}

/-- One graph is another one with its concepts renamed. -/
structure Renames (name : String → String) (g g' : Graph) : Prop where
  /-- The concepts are those of the other graph under new names. -/
  hasConcept_iff : ∀ id, g'.hasConcept id = true ↔ ∃ old, g.hasConcept old = true ∧ name old = id
  /-- The triples are those of the other graph between new names. -/
  says_iff : ∀ triple, g'.Says triple ↔ ∃ before, g.Says before ∧ before.renamed name = triple

/-- No two concepts of a graph come to have one name. -/
def KeepsApart (name : String → String) (g : Graph) : Prop :=
  Set.InjOn name {id | g.hasConcept id = true}

/-- A renamed graph says what it did between new names. -/
theorem Renames.says_mk_iff (h : g.Renames name g') : g'.Says ⟨source, type, target⟩ ↔
    ∃ old other, g.Says ⟨old, type, other⟩ ∧ name old = source ∧ name other = target := by
  rw [h.says_iff]
  constructor
  · rintro ⟨before, hsaid, hrenamed⟩
    cases hrenamed
    exact ⟨before.source, before.target, hsaid, rfl, rfl⟩
  · rintro ⟨old, other, hsaid, rfl, rfl⟩
    exact ⟨_, hsaid, rfl⟩

/-- What a renamed graph says of a concept it said of that concept before. -/
theorem Renames.says_source_iff (h : g.Renames name g') (hg : g.WellFormed) (hn : g.KeepsApart name)
    (hc : g.hasConcept id = true) : g'.Says ⟨name id, type, target⟩ ↔
      ∃ other, g.Says ⟨id, type, other⟩ ∧ name other = target := by
  rw [h.says_mk_iff]
  constructor
  · rintro ⟨old, other, hsaid, hsame, hother⟩
    obtain rfl := hn (hg.ends_of_says hsaid).1 hc hsame
    exact ⟨other, hsaid, hother⟩
  · rintro ⟨other, hsaid, hother⟩
    exact ⟨id, other, hsaid, rfl, hother⟩

/-- What a renamed graph says between two concepts it said between them before. -/
theorem Renames.says_renamed_iff (h : g.Renames name g') (hg : g.WellFormed) (hn : g.KeepsApart name)
    (hs : g.hasConcept source = true) (ht : g.hasConcept target = true) :
    g'.Says ⟨name source, type, name target⟩ ↔ g.Says ⟨source, type, target⟩ := by
  rw [h.says_source_iff hg hn hs]
  constructor
  · rintro ⟨other, hsaid, hsame⟩
    obtain rfl := hn (hg.ends_of_says hsaid).2 ht hsame
    exact hsaid
  · intro hsaid
    exact ⟨target, hsaid, rfl⟩

end Graph

namespace Rule

variable {g g' matched result : Graph} {rule inner rule' : Rule} {name : String → String}
  {id root : String} {part : RulePart}

/-- One rule is another one with its concepts renamed. -/
structure Renames (name : String → String) (rule rule' : Rule) : Prop where
  /-- The root has a new name. -/
  root_eq : rule'.root = name rule.root
  /-- The parts are renamed. -/
  part : ∀ part, (rule.part part).Renames name (rule'.part part)
  /-- The replacements are those of the other rule between new names. -/
  becomes_iff : ∀ source target, (source, target) ∈ rule'.becomes ↔
    ∃ pair ∈ rule.becomes, name pair.1 = source ∧ name pair.2 = target

/-- The root of a rule is a concept of its graph. -/
theorem IsRule.hasConcept (h : IsRule g root) (hg : g.WellFormed) : g.hasConcept root = true := by
  obtain ⟨⟨target, hsaid⟩, -⟩ := (h.isRoot_iff root).mpr rfl
  exact (hg.ends_of_says hsaid).1

/-- A renamed concept is a root if it was one before. -/
theorem isRoot_renamed_iff (h : g.Renames name g') (hg : g.WellFormed) (hn : g.KeepsApart name)
    (hc : g.hasConcept id = true) : IsRoot g' (name id) ↔ IsRoot g id := by
  simp only [IsRoot, h.says_source_iff hg hn hc]
  refine and_congr ⟨?_, ?_⟩ ⟨?_, ?_⟩
  · rintro ⟨-, other, hsaid, -⟩
    exact ⟨other, hsaid⟩
  · rintro ⟨other, hsaid⟩
    exact ⟨name other, other, hsaid, rfl⟩
  · intro hnone source hsaid
    exact hnone (name source) (h.says_mk_iff.mpr ⟨source, id, hsaid, rfl, rfl⟩)
  · intro hnone source hsaid
    obtain ⟨old, other, hbefore, -, hsame⟩ := h.says_mk_iff.mp hsaid
    obtain rfl := hn (hg.ends_of_says hbefore).2 hc hsame
    exact hnone old hbefore

/-- A renamed root has two related concepts in its conclusion if it had them there before. -/
theorem says_concluded_renamed_iff (h : g.Renames name g') (hg : g.WellFormed) (hn : g.KeepsApart name)
    (hroot : g.hasConcept root = true) {old other type : String} (hsaid : g.Says ⟨old, type, other⟩) :
    g'.Says ⟨name root, RulePart.conclusion.type, name old⟩ ∧
        g'.Says ⟨name root, RulePart.conclusion.type, name other⟩ ↔
      g.Says ⟨root, RulePart.conclusion.type, old⟩ ∧ g.Says ⟨root, RulePart.conclusion.type, other⟩ := by
  obtain ⟨hold, hother⟩ := hg.ends_of_says hsaid
  rw [h.says_renamed_iff hg hn hroot hold, h.says_renamed_iff hg hn hroot hother]

/-- A rule whose concepts are renamed is a rule. -/
theorem IsRule.renames (hrule : IsRule g root) (h : g.Renames name g') (hg : g.WellFormed)
    (hn : g.KeepsApart name) : IsRule g' (name root) where
  isRoot_iff id := by
    constructor
    · intro hid
      obtain ⟨target, hsaid⟩ := hid.1
      obtain ⟨old, other, hbefore, rfl, -⟩ := h.says_mk_iff.mp hsaid
      have hold : g.hasConcept old = true := (hg.ends_of_says hbefore).1
      have hwas : IsRoot g old := (isRoot_renamed_iff h hg hn hold).mp hid
      rw [(hrule.isRoot_iff old).mp hwas]
    · intro hid
      rw [hid, isRoot_renamed_iff h hg hn (hrule.hasConcept hg)]
      exact (hrule.isRoot_iff root).mpr rfl
  concludes := by
    obtain ⟨target, hsaid⟩ := hrule.concludes
    exact ⟨name target, h.says_mk_iff.mpr ⟨root, target, hsaid, rfl, rfl⟩⟩
  replaces := by
    intro source target hsaid houtside
    have hroot := hrule.hasConcept hg
    obtain ⟨old, other, hbefore, rfl, rfl⟩ := h.says_mk_iff.mp hsaid
    rw [says_concluded_renamed_iff h hg hn hroot hbefore] at houtside
    have hstart := hrule.replaces old other hbefore houtside
    exact h.says_mk_iff.mpr ⟨root, old, hstart, rfl, rfl⟩

/-- What a renamed root spans is renamed. -/
theorem spanned_renames (h : g.Renames name g') (hg : g.WellFormed) (hg' : g'.WellFormed)
    (hn : g.KeepsApart name) (hroot : g.hasConcept root = true) (part : RulePart) :
    (spanned g root part).Renames name (spanned g' (name root) part) where
  hasConcept_iff id := by
    simp only [hasConcept_spanned hg, hasConcept_spanned hg', h.says_source_iff hg hn hroot]
  says_iff triple := by
    constructor
    · intro hsaid
      obtain ⟨hsaid, hs, ht, htype⟩ := (says_spanned hg').mp hsaid
      obtain ⟨before, hbefore, rfl⟩ := (h.says_iff triple).mp hsaid
      obtain ⟨hsource, htarget⟩ := hg.ends_of_says hbefore
      have hs := (h.says_renamed_iff hg hn hroot hsource).mp hs
      have ht := (h.says_renamed_iff hg hn hroot htarget).mp ht
      exact ⟨before, (says_spanned hg).mpr ⟨hbefore, hs, ht, htype⟩, rfl⟩
    · rintro ⟨before, hsaid, rfl⟩
      obtain ⟨hbefore, hs, ht, htype⟩ := (says_spanned hg).mp hsaid
      have hs := (h.says_iff _).mpr ⟨_, hs, rfl⟩
      have ht := (h.says_iff _).mpr ⟨_, ht, rfl⟩
      exact (says_spanned hg').mpr ⟨(h.says_iff _).mpr ⟨before, hbefore, rfl⟩, hs, ht, htype⟩

/-- A rule whose concepts are renamed is taken apart into renamed parts. -/
theorem exists_renames (h : g.Renames name g') (hg : g.WellFormed) (hg' : g'.WellFormed)
    (hn : g.KeepsApart name) (hrule : ofGraph g = .ok rule) :
    ∃ rule', ofGraph g' = .ok rule' ∧ rule.Renames name rule' := by
  have his : IsRule g rule.root := (exists_ofGraph_iff hg).mp ⟨rule, hrule, rfl⟩
  have hroot := his.hasConcept hg
  obtain ⟨rule', hrule', hname⟩ := (exists_ofGraph_iff hg').mpr (his.renames h hg hn)
  refine ⟨rule', hrule', hname, fun part => ?_, fun source target => ?_⟩
  · rw [(splits_of_ofGraph hrule).part_eq, (splits_of_ofGraph hrule').part_eq, hname]
    exact spanned_renames h hg hg' hn hroot part
  · rw [mem_becomes hg' hrule', hname, h.says_mk_iff]
    constructor
    · rintro ⟨⟨old, other, hsaid, rfl, rfl⟩, hout⟩
      rw [says_concluded_renamed_iff h hg hn hroot hsaid] at hout
      exact ⟨(old, other), (mem_becomes hg hrule).mpr ⟨hsaid, hout⟩, rfl, rfl⟩
    · rintro ⟨⟨old, other⟩, hpair, rfl, rfl⟩
      obtain ⟨hsaid, hout⟩ := (mem_becomes hg hrule).mp hpair
      rw [says_concluded_renamed_iff h hg hn hroot hsaid]
      exact ⟨⟨old, other, hsaid, rfl, rfl⟩, hout⟩

variable {concept : Concept}

/-- What stands in for concepts of the conclusion does so for concepts that it has. -/
theorem hasConcept_of_standIn (h : rule.standIn? matched id = some concept) :
    rule.conclusion.hasConcept id = true := by
  obtain ⟨source, hs, -⟩ := Option.bind_eq_some_iff.mp h
  exact (mem_of_sourceOf hs).1

/-- When all concepts of a conclusion keep apart, one that stands in takes the place it is put in as it
is, and all others stay as they are. -/
theorem get?_image (h : Graph.Substituted (rule.standIn? matched) rule.conclusion result)
    (hapart : Apart matched rule.replaceable (rule.standIn? matched))
    (hn : rule.conclusion.KeepsApart (Graph.image (rule.standIn? matched)))
    (hc : rule.conclusion.hasConcept id = true) :
    result.concepts.get? (Graph.image (rule.standIn? matched) id) =
      (rule.standIn? matched id).or (rule.conclusion.concepts.get? id) := by
  cases hs : rule.standIn? matched id with
  | none =>
    rw [Graph.image_of_none hs, Option.none_or]
    refine h.kept id hs fun other concept ho same => ?_
    have himage : Graph.image (rule.standIn? matched) other = Graph.image (rule.standIn? matched) id := by
      rw [Graph.image_of_some ho, Graph.image_of_none hs, same]
    have hsame : other = id := hn (hasConcept_of_standIn ho) hc himage
    rw [hsame, hs] at ho
    cases ho
  | some concept =>
    have hnew : rule.standIn? matched concept.id = none :=
      Option.eq_none_iff_forall_ne_some.mpr fun other ho =>
        hapart.not_mem id concept hs (hapart.mem concept.id other ho)
    -- A concept of the conclusion with this id would keep it, and so be the one that is replaced.
    have hfree : rule.conclusion.concept? concept.id = none := by
      refine Dict.get?_eq_none.mpr fun hthere => ?_
      have himage : Graph.image (rule.standIn? matched) concept.id =
          Graph.image (rule.standIn? matched) id := by
        rw [Graph.image_of_none hnew, Graph.image_of_some hs]
      have hsame : concept.id = id := hn hthere hc himage
      rw [hsame, hs] at hnew
      cases hnew
    rw [Graph.image_of_some hs, h.placed id concept hs, Option.some_or, Graph.laidOver, hfree]

/-- If the conclusion of a rule is a rule and nothing that stands in for a concept of it has the id of a
placeholder or of an unknown of the hypothesis, grounding leads to a rule again as long as no two
concepts of the conclusion come to have one name. Its root, its parts and its replacements are those of
the inner rule with all names changed, and each concept is what stands in for the one of the inner rule,
or else that one. -/
theorem ofGraph_ground (hc : rule.conclusion.WellFormed) (hm : matched.WellFormed)
    (hinner : ofGraph rule.conclusion = .ok inner)
    (hfree : ∀ id concept, rule.standIn? matched id = some concept →
      concept.id ∉ rule.becomes.map (·.2) ∧ concept.id ∉ rule.hypothesis.unknownIds)
    (hn : rule.conclusion.KeepsApart (Graph.image (rule.standIn? matched)))
    (hg : rule.ground matched = .ok result) :
    (∀ id source, rule.sourceOf? id = some source → ∃ concept, resolved matched source = .ok concept ∧
      rule.standIn? matched id = some concept) ∧
    ∃ grounded, ofGraph result = .ok grounded ∧
      inner.Renames (Graph.image (rule.standIn? matched)) grounded ∧
      ∀ part id, (inner.part part).hasConcept id = true →
        (grounded.part part).concepts.get? (Graph.image (rule.standIn? matched) id) =
          (rule.standIn? matched id).or ((inner.part part).concepts.get? id) := by
  have hapart := apart_standIn hm hfree
  have hw := ground_wellFormed hc hg
  obtain ⟨hend, hresolves⟩ := substituted_of_ground hc hapart hg
  have hrenames : rule.conclusion.Renames (Graph.image (rule.standIn? matched)) result :=
    ⟨fun id => hend.hasConcept_iff_image fun other concept hs => hasConcept_of_standIn hs, hend.says_iff⟩
  refine ⟨fun id source hs => ?_, ?_⟩
  · obtain ⟨concept, hstand⟩ := Option.ne_none_iff_exists'.mp (hresolves id source hs)
    refine ⟨concept, ?_, hstand⟩
    rw [standIn?, hs, Option.bind_some] at hstand
    exact eq_ok_of_toOption hstand
  · obtain ⟨grounded, hgrounded, hall⟩ := exists_renames hrenames hc hw hn hinner
    refine ⟨grounded, hgrounded, hall, fun part id hid => ?_⟩
    have hnew := ((hall.part part).hasConcept_iff _).mpr ⟨id, hid, rfl⟩
    have hold := get?_concept_part hc hinner hid
    have hthere : rule.conclusion.hasConcept id = true := by
      rw [Graph.hasConcept, Dict.contains_iff, ← hold, ← Dict.contains_iff]
      exact hid
    rw [get?_concept_part hw hgrounded hnew, hold, get?_image hend hapart hn hthere]

/-- Who is a trainer gets a rule of their own: animals near them are trained. -/
def enrolling : Rule where
  root := "enrolling"
  hypothesis := Graph.ofStatements ["?person", "trainer"] [⟨"?person", "is a", "trainer"⟩]
  mapping := Graph.ofStatements ["?boss"] []
  conclusion := Graph.ofStatements ["training", "?animal", "?boss", "?pupil", "trained"]
    [⟨"training", "has_hypothesis", "?animal"⟩, ⟨"training", "has_hypothesis", "?boss"⟩,
      ⟨"?animal", "near", "?boss"⟩, ⟨"?animal", "becomes", "?pupil"⟩,
      ⟨"training", "has_conclusion", "?pupil"⟩, ⟨"training", "has_conclusion", "trained"⟩,
      ⟨"?pupil", "is", "trained"⟩]
  becomes := [("?person", "?boss")]

/-- Ann is a trainer. -/
def annTrains : Graph :=
  Graph.ofStatements ["?person", "trainer", "ann"]
    [⟨"?person", Matching.matchesType, "ann"⟩, ⟨"trainer", Matching.matchesType, "trainer"⟩]

/-- The rule that Ann gets looks for animals near her. -/
theorem ofGraph_ground_of_enrolling :
    ∃ result grounded, enrolling.ground annTrains = .ok result ∧ ofGraph result = .ok grounded ∧
      grounded.root = "training" ∧ grounded.hypothesis.Says ⟨"?animal", "near", "ann"⟩ ∧
      grounded.hypothesis.concepts.get? "ann" = some (.known "ann") ∧
      ("?animal", "?pupil") ∈ grounded.becomes := by
  have hfree : ∀ id ∈ enrolling.replaceable, ∀ concept ∈ enrolling.standIn? annTrains id,
      concept.id ∉ enrolling.becomes.map (·.2) ∧ concept.id ∉ enrolling.hypothesis.unknownIds := by
    decide
  have hrange : ∀ id concept, enrolling.standIn? annTrains id = some concept →
      concept.id ∉ enrolling.becomes.map (·.2) ∧ concept.id ∉ enrolling.hypothesis.unknownIds := by
    intro id concept h
    obtain ⟨source, hs, -⟩ := Option.bind_eq_some_iff.mp h
    exact hfree id (mem_of_sourceOf hs).2 concept h
  have hnames : ∀ id ∈ enrolling.conclusion.concepts.keys, ∀ other ∈ enrolling.conclusion.concepts.keys,
      Graph.image (enrolling.standIn? annTrains) id = Graph.image (enrolling.standIn? annTrains) other →
        id = other := by
    decide
  have hn : enrolling.conclusion.KeepsApart (Graph.image (enrolling.standIn? annTrains)) :=
    fun id hid other ho => hnames id (Dict.mem_keys.mpr hid) other (Dict.mem_keys.mpr ho)
  have hresult : (enrolling.ground annTrains).toOption.isSome = true := by decide
  have hrule : (ofGraph enrolling.conclusion).toOption.map (fun inner => (inner.root, inner.becomes,
      decide (inner.hypothesis.Says ⟨"?animal", "near", "?boss"⟩), inner.hypothesis.hasConcept "?boss")) =
        some ("training", [("?animal", "?pupil")], true, true) := by decide
  obtain ⟨result, hg⟩ := Option.isSome_iff_exists.mp hresult
  obtain ⟨inner, hinner, hfacts⟩ := Option.map_eq_some_iff.mp hrule
  simp only [Prod.mk.injEq, decide_eq_true_eq] at hfacts
  obtain ⟨hroot, hbecomes, hnear, hboss⟩ := hfacts
  have hconclusion : enrolling.conclusion.WellFormed := Graph.wellFormed_ofStatements _ _
  have hmatched : annTrains.WellFormed := Graph.wellFormed_ofStatements _ _
  obtain ⟨-, grounded, hgrounded, hall, hconcepts⟩ := ofGraph_ground hconclusion hmatched
    (eq_ok_of_toOption hinner) hrange hn (eq_ok_of_toOption hg)
  refine ⟨result, grounded, eq_ok_of_toOption hg, hgrounded, ?_, ?_, ?_, ?_⟩
  · rw [hall.root_eq, hroot]
    decide
  · exact ((hall.part .hypothesis).says_iff _).mpr ⟨_, hnear, by decide⟩
  · have hann : enrolling.standIn? annTrains "?boss" = some (.known "ann") := by decide
    have hconcept := hconcepts .hypothesis "?boss" hboss
    rw [Graph.image_of_some hann, hann, Option.some_or] at hconcept
    exact hconcept
  · have hpair : ("?animal", "?pupil") ∈ inner.becomes := by rw [hbecomes, List.mem_singleton]
    exact (hall.becomes_iff _ _).mpr ⟨_, hpair, by decide, by decide⟩

end Rule

end KnowledgeGraph
