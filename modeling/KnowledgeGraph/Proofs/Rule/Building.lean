import KnowledgeGraph.Proofs.Graph.Merging
import KnowledgeGraph.Proofs.Rule.Resolution
import KnowledgeGraph.Rule.Building

/-!
# What a built rule asks for

A rule graph holds its parts together, with a root above their concepts. Taken apart it has the concepts
of its hypothesis again, with all that the whole graph says between these: what the hypothesis says, and
what the other parts say of concepts that they share with it. Main statement: a built rule fires on the
embeddings of its hypothesis along which the memory says this as well.
-/

namespace KnowledgeGraph

/-- There are three parts. -/
theorem RulePart.exists_iff {p : RulePart → Prop} :
    (∃ part, p part) ↔ p .hypothesis ∨ p .mapping ∨ p .conclusion := by
  constructor
  · rintro ⟨part, hp⟩
    cases part with
    | hypothesis => exact .inl hp
    | mapping => exact .inr (.inl hp)
    | conclusion => exact .inr (.inr hp)
  · rintro (hp | hp | hp) <;> exact ⟨_, hp⟩

/-- No part is missing from the list of the parts. -/
theorem RulePart.mem_all (part : RulePart) : part ∈ RulePart.all := by
  cases part <;> decide

/-- Each part has a type of its own. -/
theorem RulePart.eq_of_type_eq {first second : RulePart} (h : first.type = second.type) :
    first = second := by
  revert h
  cases first <;> cases second <;> decide

/-- Replacements are told apart from all parts. -/
theorem RulePart.type_ne_becomesType (part : RulePart) : part.type ≠ Rule.becomesType := by
  cases part <;> decide

namespace Rule

variable {rule : Rule} {g : Graph} {relation : Relation} {id : String}

/-- The root of a rule is a concept with a hypothesis. -/
theorem says_hypothesis_of_ofGraph (h : ofGraph g = .ok rule) :
    ∃ target, g.Says ⟨rule.root, RulePart.hypothesis.type, target⟩ := by
  have hroot : IsRoot g rule.root := ((splits_of_ofGraph h).isRoot_iff rule.root).mpr rfl
  exact hroot.1

/-- The hypothesis of a rule has the concepts that the root has as such. -/
theorem hypothesis_concepts (hg : g.WellFormed) (h : ofGraph g = .ok rule) :
    rule.hypothesis.concepts = g.concepts.filter fun id _ =>
      (g.targetsOf rule.root RulePart.hypothesis.type).contains id := by
  rw [(splits_of_ofGraph h).hypothesis_eq, spanned, Graph.removeRelations_eq, Graph.definitionOf,
    hg.part_concepts]

/-- The hypothesis of a rule says all that the graph says of the concepts that the root has as such,
apart from replacements. -/
theorem says_hypothesis (hg : g.WellFormed) (h : ofGraph g = .ok rule) {triple : Triple} :
    rule.hypothesis.Says triple ↔ g.Says triple ∧ triple.type ≠ becomesType ∧
      triple.source ∈ g.targetsOf rule.root RulePart.hypothesis.type ∧
      triple.target ∈ g.targetsOf rule.root RulePart.hypothesis.type := by
  rw [(splits_of_ofGraph h).hypothesis_eq, says_spanned hg, Graph.mem_targetsOf, Graph.mem_targetsOf]
  constructor
  · rintro ⟨hsaid, hs, ht, htype⟩
    exact ⟨hsaid, htype rfl, hs, ht⟩
  · rintro ⟨hsaid, htype, hs, ht⟩
    exact ⟨hsaid, hs, ht, fun _ => htype⟩

end Rule

namespace RuleDraft

variable {draft : RuleDraft} {united g : Graph} {root id : String} {triple : Triple}

/-- The parts of a draft are well-formed. -/
def Sound (draft : RuleDraft) : Prop := ∀ part, (draft.part part).WellFormed

/-- Concepts that parts share are equal. -/
def PartsAgree (draft : RuleDraft) : Prop :=
  ∀ first second, (draft.part first).ConceptsAgree (draft.part second)

/-- The parts are merged one after the other. -/
theorem union_eq_ok (h : draft.union = .ok united) :
    ∃ first second, (Graph.empty.merge draft.hypothesis).toExcept = .ok first ∧
      (first.merge draft.mapping).toExcept = .ok second ∧
      (second.merge draft.conclusion).toExcept = .ok united := by
  unfold union at h
  obtain ⟨first, hfirst, h⟩ := exists_of_bind_eq_ok h
  obtain ⟨second, hsecond, h⟩ := exists_of_bind_eq_ok h
  exact ⟨first, second, hfirst, hsecond, h⟩

/-- The parts together say what each of them says, and have the concepts of each. -/
theorem union_holds (hw : draft.Sound) (h : draft.union = .ok united) :
    united.WellFormed ∧
      (∀ id, united.hasConcept id = true ↔ ∃ part, (draft.part part).hasConcept id = true) ∧
      ∀ triple, united.Says triple ↔ ∃ part, (draft.part part).Says triple := by
  obtain ⟨first, second, hfirst, hsecond, hunited⟩ := union_eq_ok h
  have hgraphs := And.intro (Graph.toExcept_eq_ok.mp hfirst).2
    (And.intro (Graph.toExcept_eq_ok.mp hsecond).2 (Graph.toExcept_eq_ok.mp hunited).2)
  refine ⟨?_, fun id => ?_, fun triple => ?_⟩
  · rw [← hgraphs.2.2, ← hgraphs.2.1, ← hgraphs.1]
    exact ((Graph.wellFormed_empty.merge _).merge _).merge _
  · have hhypothesis : draft.hypothesis.WellFormed := hw .hypothesis
    have hmapping : draft.mapping.WellFormed := hw .mapping
    have hconclusion : draft.conclusion.WellFormed := hw .conclusion
    rw [RulePart.exists_iff, ← hgraphs.2.2, Graph.hasConcept_merge hconclusion, ← hgraphs.2.1,
      Graph.hasConcept_merge hmapping, ← hgraphs.1, Graph.hasConcept_merge hhypothesis, or_assoc,
      or_assoc]
    exact or_iff_right nofun
  · rw [RulePart.exists_iff, Graph.says_merge hunited, Graph.says_merge hsecond,
      Graph.says_merge hfirst, or_assoc, or_assoc]
    exact or_iff_right nofun

/-- Parts that agree on their concepts are united without changing these. -/
theorem get?_union {concept : Concept} (hw : draft.Sound) (ha : draft.PartsAgree)
    (h : draft.union = .ok united) :
    united.concepts.get? id = some concept ↔
      ∃ part, (draft.part part).concepts.get? id = some concept := by
  obtain ⟨first, second, hfirst, hsecond, hunited⟩ := union_eq_ok h
  have hempty : Graph.empty.ConceptsAgree draft.hypothesis := nofun
  have hget := fun id concept => @Graph.ConceptsAgree.get?_merge _ _ concept id hempty
    (hw .hypothesis)
  rw [(Graph.toExcept_eq_ok.mp hfirst).2] at hget
  have hget : ∀ id concept, first.concepts.get? id = some concept ↔
      draft.hypothesis.concepts.get? id = some concept := fun id concept =>
    (hget id concept).trans (or_iff_right nofun)
  have hmapping : first.ConceptsAgree draft.mapping := fun id concept found hc hf =>
    ha .hypothesis .mapping id concept found ((hget id concept).mp hc) hf
  have hget' := fun id concept => @Graph.ConceptsAgree.get?_merge _ _ concept id hmapping (hw .mapping)
  rw [(Graph.toExcept_eq_ok.mp hsecond).2] at hget'
  have hconclusion : second.ConceptsAgree draft.conclusion := by
    intro id concept found hc hf
    rcases (hget' id concept).mp hc with hc | hc
    · exact ha .hypothesis .conclusion id concept found ((hget id concept).mp hc) hf
    · exact ha .mapping .conclusion id concept found hc hf
  rw [RulePart.exists_iff, ← (Graph.toExcept_eq_ok.mp hunited).2,
    hconclusion.get?_merge (hw .conclusion), hget', hget, or_assoc]
  exact Iff.rfl

/-- Membership leads from the root to the concepts of the parts. -/
theorem mem_membership : triple ∈ draft.membership root ↔
    ∃ part : RulePart, triple.source = root ∧ triple.type = part.type ∧
      (draft.part part).hasConcept triple.target = true := by
  simp only [membership, List.mem_flatMap, List.mem_map, Dict.mem_keys]
  constructor
  · rintro ⟨part, -, id, hid, rfl⟩
    exact ⟨part, rfl, rfl, hid⟩
  · rintro ⟨part, rfl, htype, hid⟩
    refine ⟨part, part.mem_all, triple.target, hid, ?_⟩
    rw [← htype]

/-- Replacements have a type of their own. -/
theorem type_of_mem_replacements (h : triple ∈ draft.replacements) :
    triple.type = Rule.becomesType := by
  obtain ⟨pair, -, rfl⟩ := List.mem_map.mp h
  rfl

/-- Triples that are added one after the other, each unless it is said, are added. -/
theorem adds_addTriples {triples : List Triple} {before : Graph} (hw : before.WellFormed)
    (h : addTriples before triples = .ok g) : before.Adds triples g := by
  induction triples generalizing before with
  | nil =>
    cases h
    exact .of_said hw nofun
  | cons triple rest ih =>
    rw [addTriples] at h
    obtain ⟨⟨created, next⟩, hadd, h⟩ := exists_of_bind_eq_ok h
    have hstep := hw.adds_addTripleIfAbsent hadd
    exact hstep.trans (ih hstep.wellFormed h)

/-- Triples may be added in two lists. -/
theorem addTriples_append (before : Graph) (triples more : List Triple) :
    addTriples before (triples ++ more) = addTriples before triples >>= fun g => addTriples g more := by
  induction triples generalizing before with
  | nil => rfl
  | cons triple rest ih =>
    rw [List.cons_append, addTriples, addTriples]
    cases before.addTripleIfAbsent triple with
    | ok added => exact ih added.2
    | error fault => rfl

/-- What is said of the united parts: to which part a concept belongs, and the replacements. -/
def additions (draft : RuleDraft) (root : String) : List Triple :=
  draft.membership root ++ draft.replacements

/-- A rule is completed by adding its root and what is said of the parts, and must be a rule then. -/
theorem complete_eq : draft.complete root united =
    addTriples (united.addConcept (.known root)) (draft.additions root) >>= fun g =>
      Rule.ofGraph g >>= fun _ => .ok g := by
  have hchecked : ∀ g, (discard (Rule.ofGraph g) >>= fun _ => .ok g) =
      (Rule.ofGraph g >>= fun _ => Except.ok g) := fun g => by cases Rule.ofGraph g <;> rfl
  rw [additions, addTriples_append, complete]
  simp only [hchecked]
  cases addTriples (united.addConcept (.known root)) (draft.membership root) <;> rfl

/-- What is completed has the additions and is a rule. -/
theorem adds_of_complete (hu : united.WellFormed) (h : draft.complete root united = .ok g) :
    (united.addConcept (.known root)).Adds (draft.additions root) g ∧
      ∃ rule, Rule.ofGraph g = .ok rule := by
  rw [complete_eq] at h
  obtain ⟨all, hall, h⟩ := exists_of_bind_eq_ok h
  obtain ⟨rule, hrule, h⟩ := exists_of_bind_eq_ok h
  cases h
  exact ⟨adds_addTriples (hu.addConcept _) hall, rule, hrule⟩

section Added

variable (hw : draft.Sound) (hunion : draft.union = .ok united)
  (hadds : (united.addConcept (.known root)).Adds (draft.additions root) g)

include hw hunion hadds

/-- With the additions the united parts have the root as a concept more. -/
theorem hasConcept_of_adds (id : String) : g.hasConcept id = true ↔
    id = root ∨ ∃ part, (draft.part part).hasConcept id = true := by
  have hroot : (Concept.known root).id = id ↔ id = root := eq_comm
  rw [Graph.hasConcept, hadds.concepts_eq, ← Graph.hasConcept, Graph.hasConcept_addConcept, hroot,
    (union_holds hw hunion).2.1]

/-- With the additions the united parts say what the parts say and the additions. -/
theorem says_of_adds (triple : Triple) : g.Says triple ↔
    (∃ part, (draft.part part).Says triple) ∨ triple ∈ draft.membership root ∨
      triple ∈ draft.replacements := by
  have hsame : (united.addConcept (.known root)).Says triple ↔ united.Says triple := by
    rw [Graph.says_iff, Graph.says_iff, Graph.addConcept_relations]
  rw [hadds.says_iff, hsame, (union_holds hw hunion).2.2, additions, List.mem_append]

/-- With the additions all concepts but the root are those of the parts, if these agree on them. -/
theorem get?_of_adds (ha : draft.PartsAgree) (concept : Concept) (hid : id ≠ root) :
    g.concepts.get? id = some concept ↔ ∃ part, (draft.part part).concepts.get? id = some concept := by
  have hroot : (Concept.known root).id ≠ id := Ne.symm hid
  rw [hadds.concepts_eq, Graph.get?_addConcept, if_neg hroot, get?_union hw ha hunion]

end Added

/-- A graph is a rule put together from the parts of a draft under a root. -/
structure Completes (draft : RuleDraft) (root : String) (g : Graph) : Prop where
  /-- The graph is well-formed. -/
  wellFormed : g.WellFormed
  /-- It is a rule. -/
  exists_rule : ∃ rule, Rule.ofGraph g = .ok rule
  /-- It has the root and the concepts of the parts. -/
  hasConcept_iff : ∀ id, g.hasConcept id = true ↔
    id = root ∨ ∃ part, (draft.part part).hasConcept id = true
  /-- It says what the parts say, to which part a concept belongs, and the replacements. -/
  says_iff : ∀ triple, g.Says triple ↔ (∃ part, (draft.part part).Says triple) ∨
    triple ∈ draft.membership root ∨ triple ∈ draft.replacements
  /-- Concepts other than the root are those of the parts, if these agree on them. -/
  get?_concept : draft.PartsAgree → ∀ id concept, id ≠ root →
    (g.concepts.get? id = some concept ↔
      ∃ part, (draft.part part).concepts.get? id = some concept)

/-- A rule that is completed from well-formed parts is put together from them. -/
theorem completes_of_complete (hw : draft.Sound) (hunion : draft.union = .ok united)
    (h : draft.complete root united = .ok g) : draft.Completes root g := by
  obtain ⟨hadds, hrule⟩ := adds_of_complete (union_holds hw hunion).1 h
  exact ⟨hadds.wellFormed, hrule, hasConcept_of_adds hw hunion hadds, says_of_adds hw hunion hadds,
    fun ha id concept hid => get?_of_adds hw hunion hadds ha concept hid⟩

/-- The root that a rule gets: its name, or else an id that no part uses. -/
def rootIn (draft : RuleDraft) (ids : IdSource) (united : Graph) : String :=
  draft.name.getD (ids.drawFree united).1

/-- A rule is built by uniting its parts and completing them under its root. -/
theorem build_eq (draft : RuleDraft) (ids : IdSource) : (draft.build ids).1 =
    draft.union >>= fun united => draft.complete (draft.rootIn ids united) united := by
  unfold build rootIn
  cases draft.union with
  | error fault => rfl
  | ok united => cases draft.name <;> rfl

/-- A rule that is built from well-formed parts is put together from them. -/
theorem exists_of_build {ids : IdSource} (hw : draft.Sound) (h : (draft.build ids).1 = .ok g) :
    ∃ united, draft.union = .ok united ∧ draft.Completes (draft.rootIn ids united) g := by
  rw [build_eq] at h
  obtain ⟨united, hunion, h⟩ := exists_of_bind_eq_ok h
  exact ⟨united, hunion, completes_of_complete hw hunion h⟩

/-- A rule that is built from well-formed parts under a name is put together from them. -/
theorem completes_of_build {ids : IdSource} (hw : draft.Sound) (hn : draft.name = some root)
    (h : (draft.build ids).1 = .ok g) : draft.Completes root g := by
  obtain ⟨united, -, hc⟩ := exists_of_build hw h
  rwa [rootIn, hn, Option.getD_some] at hc

/-- What the mapping and the conclusion say of concepts of the hypothesis, apart from replacements. -/
def crossing (draft : RuleDraft) : List Triple :=
  ((draft.mapping.relationList ++ draft.conclusion.relationList).map (·.triple)).filter fun triple =>
    triple.type ≠ Rule.becomesType && draft.hypothesis.hasConcept triple.source &&
      draft.hypothesis.hasConcept triple.target

/-- A triple crosses when another part says it of concepts of the hypothesis. -/
theorem mem_crossing : triple ∈ draft.crossing ↔
    (draft.mapping.Says triple ∨ draft.conclusion.Says triple) ∧ triple.type ≠ Rule.becomesType ∧
      draft.hypothesis.hasConcept triple.source = true ∧
      draft.hypothesis.hasConcept triple.target = true := by
  simp only [crossing, List.mem_filter, List.mem_map, List.mem_append, Bool.and_eq_true,
    decide_eq_true_eq, and_assoc, Graph.Says, or_and_right, exists_or]

/-- The parts of a draft are such that a rule can tell them apart again. -/
structure Regular (draft : RuleDraft) (root : String) : Prop where
  /-- The rule has a name. -/
  name_eq : draft.name = some root
  /-- The parts are well-formed. -/
  sound : draft.Sound
  /-- Concepts that parts share are equal. -/
  agree : draft.PartsAgree
  /-- No part has the name of the rule. -/
  root_free : ∀ part, (draft.part part).hasConcept root = false
  /-- No part says to which part of a rule a concept belongs. -/
  plain : ∀ part triple, (draft.part part).Says triple → ∀ other : RulePart, triple.type ≠ other.type
  /-- The hypothesis says no replacement. -/
  unreplaced : ∀ triple, draft.hypothesis.Says triple → triple.type ≠ Rule.becomesType

/-- A built rule has the root it was given, and this has just the concepts of the hypothesis as such. -/
theorem mem_targetsOf_hypothesis {rule : Rule} (h : draft.Completes root g)
    (hd : draft.Regular root) (hrule : Rule.ofGraph g = .ok rule) :
    rule.root = root ∧ ∀ id, id ∈ g.targetsOf rule.root RulePart.hypothesis.type ↔
      draft.hypothesis.hasConcept id = true := by
  have hsaid : ∀ source target, g.Says ⟨source, RulePart.hypothesis.type, target⟩ ↔
      source = root ∧ draft.hypothesis.hasConcept target = true := by
    intro source target
    rw [h.says_iff, mem_membership]
    constructor
    · rintro (⟨part, hold⟩ | ⟨part, hsource, htype, htarget⟩ | hreplaces)
      · exact absurd rfl (hd.plain part _ hold .hypothesis)
      · have hpart : RulePart.hypothesis = part := RulePart.eq_of_type_eq htype
        subst hpart
        exact ⟨hsource, htarget⟩
      · exact absurd (type_of_mem_replacements hreplaces) (RulePart.type_ne_becomesType .hypothesis)
    · rintro ⟨hsource, htarget⟩
      exact .inr (.inl ⟨.hypothesis, hsource, rfl, htarget⟩)
  obtain ⟨target, hroot⟩ := Rule.says_hypothesis_of_ofGraph hrule
  have hsame := ((hsaid _ _).mp hroot).1
  refine ⟨hsame, fun id => ?_⟩
  rw [Graph.mem_targetsOf, hsaid]
  exact and_iff_right hsame

section Apart

variable {rule : Rule} (h : draft.Completes root g) (hd : draft.Regular root)
  (hrule : Rule.ofGraph g = .ok rule)

include h hd hrule

/-- Taken apart, a built rule has the concepts of its hypothesis again. -/
theorem hypothesis_concepts_of_completes : rule.hypothesis.concepts = draft.hypothesis.concepts := by
  obtain ⟨-, htargets⟩ := mem_targetsOf_hypothesis h hd hrule
  have hne_root : ∀ {id}, draft.hypothesis.hasConcept id = true → id ≠ root := by
    rintro id hhas rfl
    exact Bool.false_ne_true ((hd.root_free .hypothesis).symm.trans hhas)
  ext id concept
  rw [Rule.hypothesis_concepts h.wellFormed hrule, Dict.get?_filter, Option.filter_eq_some_iff,
    List.contains_iff_mem, htargets]
  constructor
  · rintro ⟨hg, hhas⟩
    obtain ⟨part, hpart⟩ := (h.get?_concept hd.agree id concept (hne_root hhas)).mp hg
    obtain ⟨own, hown⟩ := Graph.hasConcept_iff.mp hhas
    rw [hown, hd.agree .hypothesis part id own concept hown hpart]
  · intro hg
    have hhas : draft.hypothesis.hasConcept id = true := Graph.hasConcept_iff.mpr ⟨concept, hg⟩
    exact ⟨(h.get?_concept hd.agree id concept (hne_root hhas)).mpr ⟨.hypothesis, hg⟩, hhas⟩

/-- Taken apart, a built rule says of the concepts of its hypothesis what this says and what crosses. -/
theorem says_hypothesis_of_completes (triple : Triple) : rule.hypothesis.Says triple ↔
    draft.hypothesis.Says triple ∨ triple ∈ draft.crossing := by
  obtain ⟨-, htargets⟩ := mem_targetsOf_hypothesis h hd hrule
  have hwell : draft.hypothesis.WellFormed := hd.sound .hypothesis
  rw [Rule.says_hypothesis h.wellFormed hrule, htargets, htargets, h.says_iff, mem_crossing,
    RulePart.exists_iff]
  constructor
  · rintro ⟨(hsaid | hsaid) | hmember | hreplaces, htype, hs, ht⟩
    · exact .inl hsaid
    · exact .inr ⟨hsaid, htype, hs, ht⟩
    · obtain ⟨part, hsource, -, -⟩ := mem_membership.mp hmember
      rw [hsource] at hs
      exact absurd ((hd.root_free .hypothesis).symm.trans hs) Bool.false_ne_true
    · exact absurd (type_of_mem_replacements hreplaces) htype
  · rintro (hsaid | ⟨hsaid, htype, hs, ht⟩)
    · obtain ⟨relation, hmem, rfl⟩ := id hsaid
      have hget := hwell.mem_relationList.mp hmem
      exact ⟨.inl (.inl hsaid), hd.unreplaced _ hsaid, hwell.source_mem _ _ hget,
        hwell.target_mem _ _ hget⟩
    · exact ⟨.inl (.inr hsaid), htype, hs, ht⟩

end Apart

/-- A rule built from parts that it can tell apart again fires on the embeddings of its hypothesis along
which the memory says what crosses, in the order of the search for the hypothesis and as many as are
wanted. These are the bindings that this search finds if the hypothesis itself says what crosses. -/
theorem fires_of_build {ids : IdSource} (hd : draft.Regular root) (h : (draft.build ids).1 = .ok g) :
    ∃ rule, Rule.ofGraph g = .ok rule ∧ rule.root = root ∧
      ∀ (memory : Graph) (limits : SearchLimits) (found fired : List Binding), memory.WellFormed →
        Matching.findBindings limits draft.hypothesis memory = .ok found →
        Matching.findBindings limits rule.hypothesis memory = .ok fired →
        (∃ all : List Binding,
          (∀ binding, binding ∈ all ↔ Matching.Embeds draft.hypothesis memory binding) ∧
          all.Pairwise (fun first second => first.values < second.values) ∧
          found = all.take limits.maxResults ∧
          fired = (all.filter fun binding => draft.crossing.all fun triple =>
            memory.hasTriple (binding.resolveTriple triple)).take limits.maxResults) ∧
        ((∀ triple ∈ draft.crossing, draft.hypothesis.Says triple) → fired = found) := by
  have hc := completes_of_build hd.sound hd.name_eq h
  obtain ⟨rule, hrule⟩ := hc.exists_rule
  have hconcepts := hypothesis_concepts_of_completes hc hd hrule
  have hold := says_hypothesis_of_completes hc hd hrule
  have hown : draft.hypothesis.WellFormed := hd.sound .hypothesis
  have hasked := (Rule.wellFormed_of_ofGraph hc.wellFormed hrule).1
  refine ⟨rule, hrule, (mem_targetsOf_hypothesis hc hd hrule).1, ?_⟩
  intro memory limits found fired hm hfound hfired
  have hfront := Matching.eq_take_of_findBindings hown hm hfound
  have hfront' := Matching.eq_take_of_findBindings hasked hm hfired
  rw [Matching.embeddings_of_says hown hasked hm hconcepts hold] at hfront'
  refine ⟨⟨_, fun _ => Matching.mem_embeddings_iff hown hm, Matching.embeddings_ascending hown hm,
    hfront, hfront'⟩, fun hsaid => ?_⟩
  rw [hfront, hfront', List.filter_eq_self.mpr]
  intro binding hb
  have hembeds := (Matching.mem_embeddings_iff hown hm).mp hb
  refine List.all_eq_true.mpr fun triple ht => hm.hasTriple_iff.mpr ?_
  obtain ⟨relation, hr, rfl⟩ := hsaid triple ht
  exact hembeds.holds relation hr

/-- Whoever is a parent of a parent has a grandchild. The conclusion is about the two ends of the
hypothesis. -/
def grandchildren : RuleDraft where
  name := some "grandchildren"
  hypothesis := .ofStatements ["?a", "?b", "?m"] [⟨"?a", "parent", "?m"⟩, ⟨"?m", "parent", "?b"⟩]
  conclusion := .ofStatements ["?a", "?b"] [⟨"?b", "grandchild", "?a"⟩]

/-- The rule graph of the draft. -/
def grandchildrenGraph : Graph :=
  .ofStatements ["grandchildren", "?a", "?b", "?m"]
    [⟨"?a", "parent", "?m"⟩, ⟨"?m", "parent", "?b"⟩, ⟨"?b", "grandchild", "?a"⟩,
      ⟨"grandchildren", "has_hypothesis", "?a"⟩, ⟨"grandchildren", "has_hypothesis", "?b"⟩,
      ⟨"grandchildren", "has_hypothesis", "?m"⟩, ⟨"grandchildren", "has_conclusion", "?a"⟩,
      ⟨"grandchildren", "has_conclusion", "?b"⟩]

/-- Two families, of one of which it is said who is whose grandchild. -/
def families : Graph :=
  .ofStatements ["alice", "bob", "carol", "dan", "eve", "fay"]
    [⟨"alice", "parent", "bob"⟩, ⟨"bob", "parent", "carol"⟩, ⟨"carol", "grandchild", "alice"⟩,
      ⟨"dan", "parent", "eve"⟩, ⟨"eve", "parent", "fay"⟩]

/-- A binding of the concepts of the rule to three generations. -/
def generations (first second third : String) : Binding :=
  .ofList [("?a", first), ("?b", third), ("?m", second)]

/-- Graphs with the shape of notation have equal concepts under one id. -/
theorem conceptsAgree_of_shaped {other : Graph} (hg : g.NotationShaped) (ho : other.NotationShaped) :
    g.ConceptsAgree other := by
  intro id concept found hc hf
  rw [hg.concept_eq hc, ho.concept_eq hf]

/-- The rule can tell its parts apart. -/
theorem grandchildren_regular : grandchildren.Regular "grandchildren" := by
  have hshaped : ∀ part, (grandchildren.part part).NotationShaped := by
    intro part
    cases part with
    | hypothesis => exact .ofStatements _ _
    | mapping => exact .empty
    | conclusion => exact .ofStatements _ _
  have hfree : ∀ part ∈ RulePart.all, (grandchildren.part part).hasConcept "grandchildren" = false := by
    decide
  have hplain : ∀ part ∈ RulePart.all, ∀ relation ∈ (grandchildren.part part).relationList,
      ∀ other ∈ RulePart.all, relation.triple.type ≠ other.type := by
    decide
  have hunreplaced : ∀ relation ∈ grandchildren.hypothesis.relationList,
      relation.triple.type ≠ Rule.becomesType := by
    decide
  refine ⟨rfl, fun part => (hshaped part).toWellFormed, ?_, fun part => hfree part part.mem_all, ?_, ?_⟩
  · exact fun first second => conceptsAgree_of_shaped (hshaped first) (hshaped second)
  · rintro part _ ⟨relation, hr, rfl⟩ other
    exact hplain part part.mem_all relation hr other other.mem_all
  · rintro _ ⟨relation, hr, rfl⟩
    exact hunreplaced relation hr

/-- The rule is built, and one of the two embeddings of its hypothesis is found for it. -/
theorem grandchildren_run :
    (grandchildren.build {}).1 = .ok grandchildrenGraph ∧
      Matching.findBindings {} grandchildren.hypothesis families =
        .ok [generations "alice" "bob" "carol", generations "dan" "eve" "fay"] ∧
      ∃ rule, Rule.ofGraph grandchildrenGraph = .ok rule ∧
        Matching.findBindings {} rule.hypothesis families =
          .ok [generations "alice" "bob" "carol"] := by
  have hfired : (Rule.ofGraph grandchildrenGraph >>= fun rule =>
      Matching.findBindings {} rule.hypothesis families) =
        .ok [generations "alice" "bob" "carol"] := by decide +kernel
  exact ⟨by decide +kernel, by decide +kernel, exists_of_bind_eq_ok hfired⟩

/-- The rule fires on the one family alone, of which its conclusion is said already. -/
theorem fires_of_build_of_families :
    (grandchildren.build {}).1 = .ok grandchildrenGraph ∧
      Matching.findBindings {} grandchildren.hypothesis families =
        .ok [generations "alice" "bob" "carol", generations "dan" "eve" "fay"] ∧
      ∃ rule, Rule.ofGraph grandchildrenGraph = .ok rule ∧
        Matching.findBindings {} rule.hypothesis families =
          .ok [generations "alice" "bob" "carol"] ∧
        ∃ all : List Binding,
          [generations "alice" "bob" "carol", generations "dan" "eve" "fay"] = all.take 10000 ∧
          [generations "alice" "bob" "carol"] =
            (all.filter fun binding => grandchildren.crossing.all fun triple =>
              families.hasTriple (binding.resolveTriple triple)).take 10000 := by
  have hmemory : families.WellFormed := Graph.wellFormed_ofStatements _ _
  obtain ⟨hbuilt, hfound, rule, hrule, hfired⟩ := grandchildren_run
  obtain ⟨same, hsame, -, hall⟩ := fires_of_build grandchildren_regular hbuilt
  rw [hrule] at hsame
  cases hsame
  obtain ⟨⟨all, -, -, hfront, hfront'⟩, -⟩ := hall families {} _ _ hmemory hfound hfired
  exact ⟨hbuilt, hfound, rule, hrule, hfired, all, hfront, hfront'⟩

/-- Of the other family the rule asks that its conclusion be said, which the hypothesis does not. -/
theorem not_fires_of_crossing :
    ¬∀ (draft : RuleDraft) (root : String) (ids : IdSource) (g : Graph) (rule : Rule)
      (memory : Graph) (limits : SearchLimits) (found fired : List Binding),
      draft.Regular root →
      (∀ pair ∈ draft.becomes, draft.hypothesis.hasConcept pair.1 = true ∧
        (draft.mapping.hasConcept pair.2 = true ∨ draft.conclusion.hasConcept pair.2 = true)) →
      (draft.build ids).1 = .ok g → Rule.ofGraph g = .ok rule → memory.WellFormed →
      Matching.findBindings limits draft.hypothesis memory = .ok found →
      Matching.findBindings limits rule.hypothesis memory = .ok fired → fired = found := by
  intro hall
  obtain ⟨hbuilt, hfound, rule, hrule, hfired⟩ := grandchildren_run
  have hsame := hall grandchildren "grandchildren" {} grandchildrenGraph rule families {} _ _
    grandchildren_regular nofun hbuilt hrule (Graph.wellFormed_ofStatements _ _) hfound hfired
  exact absurd (congrArg List.length hsame) (by decide)

end RuleDraft

end KnowledgeGraph
