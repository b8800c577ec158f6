import KnowledgeGraph.Proofs.FreshId
import KnowledgeGraph.Proofs.Graph.Union
import KnowledgeGraph.Proofs.Rule.Building
import KnowledgeGraph.Proofs.Rule.Splitting

/-!
# Taking a built rule apart

Parts that share no concept and say nothing that is said of parts come out of the rule graph as they went
into it, with the ids and the metadata of their relations: no relation of one part lies between concepts
of another one, and neither does any that is added to them. Main statement: `ofGraph_build`.
-/

namespace KnowledgeGraph

namespace RuleDraft

variable {draft : RuleDraft} {united g before : Graph} {root id : String} {part : RulePart}
  {relation : Relation} {triples : List Triple} {fault : Fault}

/-- The parts of a draft share nothing and say nothing that a rule says of its parts, and there are a
hypothesis and a conclusion. -/
structure Separate (draft : RuleDraft) : Prop where
  /-- The parts are well-formed. -/
  sound : draft.Sound
  /-- There is a hypothesis. -/
  hypothesis_nonempty : draft.hypothesis.isEmpty = false
  /-- There is a conclusion. -/
  conclusion_nonempty : draft.conclusion.isEmpty = false
  /-- No two parts share a concept. -/
  foreign : ∀ first second, first ≠ second → (draft.part first).Foreign (draft.part second)
  /-- No part says to which part of a rule a concept belongs. -/
  plain : ∀ part triple, (draft.part part).Says triple → ∀ other : RulePart, triple.type ≠ other.type
  /-- No part says a replacement. -/
  unreplaced : ∀ part triple, (draft.part part).Says triple → triple.type ≠ Rule.becomesType
  /-- No part has the name of the rule, if there is one. -/
  name_free : ∀ name, draft.name = some name → ∀ part, (draft.part part).hasConcept name = false
  /-- Concepts of the hypothesis are replaced, and they replace placeholders. -/
  becomes_between : ∀ pair ∈ draft.becomes, draft.hypothesis.hasConcept pair.1 = true ∧
    (draft.mapping.hasConcept pair.2 = true ∨ draft.conclusion.hasConcept pair.2 = true)

/-- Parts that share no concept agree on their concepts. -/
theorem Separate.partsAgree (hd : draft.Separate) : draft.PartsAgree := by
  intro first second id concept found hc hf
  by_cases same : first = second
  · subst same
    exact Option.some.inj (hc.symm.trans hf)
  · exact absurd (Graph.hasConcept_iff.mpr ⟨found, hf⟩)
      (hd.foreign first second same id (Graph.hasConcept_iff.mpr ⟨concept, hc⟩))

/-- A concept is in one part at most. -/
theorem Separate.part_eq (hd : draft.Separate) {other : RulePart}
    (h : (draft.part part).hasConcept id = true) (h' : (draft.part other).hasConcept id = true) :
    part = other := by
  by_contra hne
  exact hd.foreign part other hne id h h'

/-- The relations of foreign parts are united as they are. -/
theorem Separate.get?_union (hd : draft.Separate) (h : draft.union = .ok united) :
    united.relations.get? id = some relation ↔
      ∃ part, (draft.part part).relations.get? id = some relation := by
  obtain ⟨first, second, hfirst, hsecond, hunited⟩ := union_eq_ok h
  have hhypothesis : draft.hypothesis.WellFormed := hd.sound .hypothesis
  have hmapping : draft.mapping.WellFormed := hd.sound .mapping
  have hconclusion : draft.conclusion.WellFormed := hd.sound .conclusion
  have hrebuild : Graph.empty.merge draft.hypothesis = ⟨draft.hypothesis, none⟩ := hhypothesis.rebuild
  rw [hrebuild] at hfirst
  cases hfirst
  have hforeign : draft.hypothesis.Foreign draft.mapping := hd.foreign .hypothesis .mapping nofun
  have hwell : second.WellFormed := (Graph.toExcept_eq_ok.mp hsecond).2 ▸ hhypothesis.merge _
  have hforeign' : second.Foreign draft.conclusion := by
    intro id hid
    rw [← (Graph.toExcept_eq_ok.mp hsecond).2, Graph.hasConcept_merge hmapping] at hid
    rcases hid with hid | hid
    · exact hd.foreign .hypothesis .conclusion nofun id hid
    · exact hd.foreign .mapping .conclusion nofun id hid
  rw [RulePart.exists_iff, hforeign'.get?_merge hwell hconclusion hunited,
    hforeign.get?_merge hhypothesis hmapping hsecond, or_assoc]
  exact Iff.rfl

/-- Parts are united unless two relations of theirs have one id. -/
theorem fault_of_union (hw : draft.Sound) (h : draft.union = .error fault) :
    ∃ id, fault = .duplicateRelation id := by
  unfold union at h
  rcases cases_of_bind_eq_error h with hfirst | ⟨first, -, h⟩
  · exact Graph.fault_of_merge (hw .hypothesis) hfirst
  · rcases cases_of_bind_eq_error h with hsecond | ⟨second, -, hthird⟩
    · exact Graph.fault_of_merge (hw .mapping) hsecond
    · exact Graph.fault_of_merge (hw .conclusion) hthird

/-- Triples that are added one after the other gain their relations at most. -/
theorem gains_addTriples (hw : before.WellFormed) (h : addTriples before triples = .ok g) :
    before.Gains triples g := by
  induction triples generalizing before with
  | nil =>
    cases h
    exact ⟨fun _ _ hr => hr, fun _ _ hr => .inl hr⟩
  | cons triple rest ih =>
    rw [addTriples] at h
    obtain ⟨⟨created, next⟩, hadd, h⟩ := exists_of_bind_eq_ok h
    exact (hw.gains_addTripleIfAbsent hadd).trans (ih (hw.addTripleIfAbsent hadd) h)

/-- Triples between concepts are refused only because the id of one stands for another triple. -/
theorem fault_of_addTriples (hw : before.WellFormed)
    (he : ∀ triple ∈ triples, before.hasConcept triple.source = true ∧
      before.hasConcept triple.target = true)
    (h : addTriples before triples = .error fault) : ∃ id, fault = .duplicateRelation id := by
  induction triples generalizing before with
  | nil => cases h
  | cons triple rest ih =>
    obtain ⟨⟨hs, ht⟩, hrest⟩ := List.forall_mem_cons.mp he
    rw [addTriples] at h
    cases ha : before.addTripleIfAbsent triple with
    | error refused =>
      rw [ha] at h
      cases h
      exact Graph.fault_of_addTripleIfAbsent hs ht ha
    | ok added =>
      rw [ha] at h
      have hsame : ∀ id, added.2.hasConcept id = before.hasConcept id := fun id => by
        rw [Graph.hasConcept, Graph.hasConcept, (hw.adds_addTripleIfAbsent ha).concepts_eq]
      refine ih (hw.addTripleIfAbsent ha) (fun triple hr => ?_) h
      rw [hsame, hsame]
      exact hrest triple hr

/-- The additions lead between concepts of the parts and the root. -/
theorem ends_of_additions (hd : draft.Separate) (hunion : draft.union = .ok united) :
    ∀ triple ∈ draft.additions root,
      (united.addConcept (.known root)).hasConcept triple.source = true ∧
        (united.addConcept (.known root)).hasConcept triple.target = true := by
  have hthere : ∀ part id, (draft.part part).hasConcept id = true →
      (united.addConcept (.known root)).hasConcept id = true := fun part id hid =>
    Graph.hasConcept_addConcept.mpr (.inr (((union_holds hd.sound hunion).2.1 id).mpr ⟨part, hid⟩))
  intro triple ht
  rcases List.mem_append.mp ht with hmember | hreplaces
  · obtain ⟨part, hsource, -, htarget⟩ := mem_membership.mp hmember
    exact ⟨Graph.hasConcept_addConcept.mpr (.inl hsource.symm), hthere part _ htarget⟩
  · obtain ⟨pair, hpair, rfl⟩ := List.mem_map.mp hreplaces
    obtain ⟨hsource, htarget⟩ := hd.becomes_between pair hpair
    refine ⟨hthere .hypothesis _ hsource, ?_⟩
    rcases htarget with htarget | htarget
    · exact hthere .mapping _ htarget
    · exact hthere .conclusion _ htarget

/-- The root that a rule gets is in none of its parts. -/
theorem Separate.rootIn_free (hd : draft.Separate) (hunion : draft.union = .ok united) (ids : IdSource)
    (part : RulePart) : (draft.part part).hasConcept (draft.rootIn ids united) = false := by
  cases hname : draft.name with
  | some name =>
    rw [rootIn, hname]
    exact hd.name_free name hname part
  | none =>
    rw [rootIn, hname]
    refine Bool.eq_false_iff.mpr fun hid => ?_
    have hused := ((union_holds hd.sound hunion).2.1 _).mpr ⟨part, hid⟩
    exact Bool.false_ne_true ((ids.hasConcept_drawFree united).symm.trans hused)

/-- A graph has what foreign parts have, the root, which is in none of them, and the additions. -/
structure Assembled (draft : RuleDraft) (root : String) (g : Graph) : Prop where
  /-- The graph is well-formed. -/
  wellFormed : g.WellFormed
  /-- No part has the root. -/
  root_free : ∀ part, (draft.part part).hasConcept root = false
  /-- All concepts but the root are those of the parts. -/
  get?_concept : ∀ id concept, id ≠ root →
    (g.concepts.get? id = some concept ↔ ∃ part, (draft.part part).concepts.get? id = some concept)
  /-- It says what the parts say and the additions. -/
  says_iff : ∀ triple, g.Says triple ↔ (∃ part, (draft.part part).Says triple) ∨
    triple ∈ draft.membership root ∨ triple ∈ draft.replacements
  /-- It keeps the relations of the parts. -/
  kept : ∀ part id relation, (draft.part part).relations.get? id = some relation →
    g.relations.get? id = some relation
  /-- The others say additions and have the ids of these. -/
  gained : ∀ id relation, g.relations.get? id = some relation →
    (∃ part, (draft.part part).relations.get? id = some relation) ∨
      ∃ triple ∈ draft.additions root, relation = .ofTriple triple

/-- Adding to united parts assembles them. -/
theorem Separate.assembled (hd : draft.Separate) (hunion : draft.union = .ok united)
    (hfree : ∀ part, (draft.part part).hasConcept root = false)
    (hadded : addTriples (united.addConcept (.known root)) (draft.additions root) = .ok g) :
    draft.Assembled root g := by
  have hwell := (union_holds hd.sound hunion).1.addConcept (.known root)
  have hadds := adds_addTriples hwell hadded
  have hgains := gains_addTriples hwell hadded
  refine ⟨hadds.wellFormed, hfree, fun id concept => ?_, says_of_adds hd.sound hunion hadds,
    fun part id relation hr => ?_, fun id relation hr => ?_⟩
  · exact get?_of_adds hd.sound hunion hadds hd.partsAgree concept
  · exact hgains.kept id relation ((hd.get?_union hunion).mpr ⟨part, hr⟩)
  · rcases hgains.gained id relation hr with hold | hnew
    · exact .inl ((hd.get?_union hunion).mp hold)
    · exact .inr hnew

section Assembled

variable (hd : draft.Separate) (h : draft.Assembled root g)

include hd h

/-- The root and no other concept has relations to parts, and these are to the concepts of its parts. -/
theorem says_part_iff {source target : String} : g.Says ⟨source, part.type, target⟩ ↔
    source = root ∧ (draft.part part).hasConcept target = true := by
  rw [h.says_iff, mem_membership]
  constructor
  · rintro (⟨other, hsaid⟩ | ⟨other, hsource, htype, htarget⟩ | hreplaces)
    · exact absurd rfl (hd.plain other _ hsaid part)
    · obtain rfl := RulePart.eq_of_type_eq htype
      exact ⟨hsource, htarget⟩
    · exact absurd (type_of_mem_replacements hreplaces) part.type_ne_becomesType
  · rintro ⟨hsource, htarget⟩
    exact .inr (.inl ⟨part, hsource, rfl, htarget⟩)

/-- What is said to replace something was declared to do so. -/
theorem says_becomes_iff {source target : String} : g.Says ⟨source, Rule.becomesType, target⟩ ↔
    (source, target) ∈ draft.becomes := by
  rw [h.says_iff, mem_membership]
  constructor
  · rintro (⟨other, hsaid⟩ | ⟨other, -, htype, -⟩ | hreplaces)
    · exact absurd rfl (hd.unreplaced other _ hsaid)
    · exact absurd htype.symm other.type_ne_becomesType
    · obtain ⟨pair, hpair, hsame⟩ := List.mem_map.mp hreplaces
      cases hsame
      exact hpair
  · intro hpair
    exact .inr (.inr (List.mem_map.mpr ⟨_, hpair, rfl⟩))

/-- Replacements are said under the ids of their triples. -/
theorem eq_ofTriple_of_becomes :
    ∀ relation ∈ g.relationsOfType Rule.becomesType, relation = .ofTriple relation.triple := by
  intro relation hr
  obtain ⟨hr, htype⟩ := Rule.mem_relationsOfType.mp hr
  rcases h.gained _ relation (h.wellFormed.mem_relationList.mp hr) with ⟨part, hpart⟩ | ⟨triple, -, rfl⟩
  · have hsaid : (draft.part part).Says relation.triple := Graph.says_iff.mpr ⟨_, relation, hpart, rfl⟩
    exact absurd htype (hd.unreplaced part _ hsaid)
  · rfl

/-- The graph is a rule with the root. -/
theorem isRule_of_assembled : Rule.IsRule g root where
  isRoot_iff id := by
    simp only [Rule.IsRoot, says_part_iff hd h]
    constructor
    · rintro ⟨⟨target, hid, -⟩, -⟩
      exact hid
    · rintro rfl
      have hhypothesis : draft.hypothesis.WellFormed := hd.sound .hypothesis
      obtain ⟨target, ht⟩ := hhypothesis.exists_hasConcept hd.hypothesis_nonempty
      refine ⟨⟨target, rfl, ht⟩, fun source hconcluded => ?_⟩
      rw [h.root_free] at hconcluded
      exact Bool.false_ne_true hconcluded.2
  concludes := by
    have hconclusion : draft.conclusion.WellFormed := hd.sound .conclusion
    obtain ⟨target, ht⟩ := hconclusion.exists_hasConcept hd.conclusion_nonempty
    exact ⟨target, (says_part_iff hd h).mpr ⟨rfl, ht⟩⟩
  replaces source target hsaid _ := by
    have hpair := (says_becomes_iff hd h).mp hsaid
    exact (says_part_iff hd h).mpr ⟨rfl, (hd.becomes_between _ hpair).1⟩

omit hd in
/-- A concept of a part is not the root. -/
theorem Assembled.ne_root (hid : (draft.part part).hasConcept id = true) : id ≠ root := by
  rintro rfl
  exact Bool.false_ne_true ((h.root_free part).symm.trans hid)

/-- The root spans the concepts of a part. -/
theorem spanned_concepts (part : RulePart) :
    (Rule.spanned g root part).concepts = (draft.part part).concepts := by
  ext id concept
  rw [Rule.get?_concept_spanned h.wellFormed, says_part_iff hd h]
  constructor
  · rintro ⟨hconcept, -, hid⟩
    obtain ⟨other, ho⟩ := (h.get?_concept id concept (h.ne_root hid)).mp hconcept
    obtain rfl := hd.part_eq hid (Graph.hasConcept_iff.mpr ⟨concept, ho⟩)
    exact ho
  · intro hconcept
    have hid : (draft.part part).hasConcept id = true := Graph.hasConcept_iff.mpr ⟨concept, hconcept⟩
    exact ⟨(h.get?_concept id concept (h.ne_root hid)).mpr ⟨part, hconcept⟩, rfl, hid⟩

/-- The root spans the relations of a part. -/
theorem spanned_relations (part : RulePart) :
    (Rule.spanned g root part).relations = (draft.part part).relations := by
  ext id relation
  rw [Rule.get?_relation_spanned h.wellFormed, says_part_iff hd h, says_part_iff hd h]
  constructor
  · rintro ⟨hrelation, ⟨-, hsource⟩, -, htype⟩
    rcases h.gained id relation hrelation with ⟨other, ho⟩ | ⟨triple, hadded, rfl⟩
    · obtain rfl := hd.part_eq hsource ((hd.sound other).source_mem id relation ho)
      exact ho
    · rcases List.mem_append.mp hadded with hmember | hreplaces
      · obtain ⟨-, hroot, -, -⟩ := mem_membership.mp hmember
        exact absurd hroot (h.ne_root hsource)
      · -- A replacement starts in the hypothesis, from which replacements are removed.
        obtain ⟨pair, hpair, rfl⟩ := List.mem_map.mp hreplaces
        have hhypothesis : part = .hypothesis := hd.part_eq hsource (hd.becomes_between pair hpair).1
        exact absurd rfl (htype hhypothesis)
  · intro hrelation
    have hsource := (hd.sound part).source_mem id relation hrelation
    have htarget := (hd.sound part).target_mem id relation hrelation
    have hsaid : (draft.part part).Says relation.triple :=
      Graph.says_iff.mpr ⟨id, relation, hrelation, rfl⟩
    exact ⟨h.kept part id relation hrelation, ⟨rfl, hsource⟩, ⟨rfl, htarget⟩,
      fun _ => hd.unreplaced part _ hsaid⟩

/-- The rule that the graph is has the root, the parts and the replacements of the draft. -/
theorem parts_of_assembled {rule : Rule} (hrule : Rule.ofGraph g = .ok rule) :
    rule.root = root ∧ (∀ part, rule.part part = draft.part part) ∧ rule.becomes.Nodup ∧
      ∀ pair, pair ∈ rule.becomes ↔ pair ∈ draft.becomes := by
  have hsplits := Rule.splits_of_ofGraph hrule
  have hroot : rule.root = root :=
    ((isRule_of_assembled hd h).isRoot_iff rule.root).mp ((hsplits.isRoot_iff rule.root).mpr rfl)
  refine ⟨hroot, fun part => ?_, Rule.nodup_becomes h.wellFormed hrule (eq_ofTriple_of_becomes hd h),
    fun pair => ?_⟩
  · rw [hsplits.part_eq, hroot]
    exact (Rule.wellFormed_spanned h.wellFormed root part).eq_of_parts (hd.sound part)
      (spanned_concepts hd h part) (spanned_relations hd h part)
  · rw [Rule.mem_becomes h.wellFormed hrule, says_becomes_iff hd h]
    refine and_iff_left_of_imp fun hpair hconcluded => ?_
    have hconclusion := ((says_part_iff hd h).mp hconcluded.1).2
    exact hd.foreign .hypothesis .conclusion nofun _ (hd.becomes_between pair hpair).1 hconclusion

end Assembled

/-- If the parts of a draft share nothing, the rule that is built from them is taken apart into the same
parts, with all attributes, metadata and ids, and into the replacements that were declared, each once. It
has the name that was given to it, or else an id that no part uses. And such a rule is built unless the id
of a relation would stand for two triples. -/
theorem ofGraph_build (hd : draft.Separate) (ids : IdSource) :
    (∀ g, (draft.build ids).1 = .ok g → ∃ united rule, draft.union = .ok united ∧
      Rule.ofGraph g = .ok rule ∧ rule.root = draft.name.getD (ids.drawFree united).1 ∧
      (∀ part, rule.part part = draft.part part) ∧ rule.becomes.Nodup ∧
      ∀ pair, pair ∈ rule.becomes ↔ pair ∈ draft.becomes) ∧
    ∀ fault, (draft.build ids).1 = .error fault → ∃ id, fault = .duplicateRelation id := by
  simp only [build_eq]
  refine ⟨fun g h => ?_, fun fault h => ?_⟩
  · obtain ⟨united, hunion, h⟩ := exists_of_bind_eq_ok h
    rw [complete_eq] at h
    obtain ⟨_, hadded, h⟩ := exists_of_bind_eq_ok h
    obtain ⟨rule, hrule, h⟩ := exists_of_bind_eq_ok h
    cases h
    have hassembled := hd.assembled hunion (hd.rootIn_free hunion ids) hadded
    exact ⟨united, rule, hunion, hrule, parts_of_assembled hd hassembled hrule⟩
  · rcases cases_of_bind_eq_error h with hunion | ⟨united, hunion, h⟩
    · exact fault_of_union hd.sound hunion
    · rw [complete_eq] at h
      have hwell := (union_holds hd.sound hunion).1.addConcept (.known (draft.rootIn ids united))
      rcases cases_of_bind_eq_error h with hrefused | ⟨g, hadded, h⟩
      · exact fault_of_addTriples hwell (ends_of_additions hd hunion) hrefused
      · have hassembled := hd.assembled hunion (hd.rootIn_free hunion ids) hadded
        obtain ⟨rule, hrule, -⟩ :=
          (Rule.exists_ofGraph_iff hassembled.wellFormed).mpr (isRule_of_assembled hd hassembled)
        rw [hrule] at h
        cases h

/-- That parts share nothing can be seen from their lists. -/
theorem separate_of_lists (hw : draft.Sound) (hh : draft.hypothesis.isEmpty = false)
    (hc : draft.conclusion.isEmpty = false)
    (hforeign : ∀ first ∈ RulePart.all, ∀ second ∈ RulePart.all, first ≠ second →
      ∀ id ∈ (draft.part first).concepts.keys, (draft.part second).hasConcept id = false)
    (hplain : ∀ part ∈ RulePart.all, ∀ relation ∈ (draft.part part).relationList,
      (∀ other ∈ RulePart.all, relation.triple.type ≠ other.type) ∧
        relation.triple.type ≠ Rule.becomesType)
    (hname : ∀ name ∈ draft.name, ∀ part ∈ RulePart.all, (draft.part part).hasConcept name = false)
    (hbecomes : ∀ pair ∈ draft.becomes, draft.hypothesis.hasConcept pair.1 = true ∧
      (draft.mapping.hasConcept pair.2 = true ∨ draft.conclusion.hasConcept pair.2 = true)) :
    draft.Separate where
  sound := hw
  hypothesis_nonempty := hh
  conclusion_nonempty := hc
  foreign := by
    intro first second hne id hf hs
    rw [hforeign first first.mem_all second second.mem_all hne id (Dict.mem_keys.mpr hf)] at hs
    cases hs
  plain := by
    rintro part _ ⟨relation, hr, rfl⟩ other
    exact (hplain part part.mem_all relation hr).1 other other.mem_all
  unreplaced := by
    rintro part _ ⟨relation, hr, rfl⟩
    exact (hplain part part.mem_all relation hr).2
  name_free name hn part := hname name hn part part.mem_all
  becomes_between := hbecomes

/-- Who has an animal feeds a pet. The relations have ids of their own, that of the conclusion one that is
given, and it is said for how many years an animal is had. -/
def keeping (name : Option String) (feeding : String) : RuleDraft where
  name
  hypothesis := ((Graph.empty.addConcepts [.unknown "?person", .unknown "?animal"]).addRelations
    [{ id := "having", triple := ⟨"?person", "has", "?animal"⟩,
       metadata := .ofList [("years", .nat 7)] }]).graph
  mapping := .ofStatements ["?pet"] []
  conclusion := ((Graph.empty.addConcepts [.unknown "?keeper", .known "c1"]).addRelations
    [{ id := feeding, triple := ⟨"?keeper", "feeds", "c1"⟩ }]).graph
  becomes := [("?person", "?keeper"), ("?animal", "?pet"), ("?person", "?keeper")]

/-- The parts are well-formed. -/
theorem sound_keeping (name : Option String) (feeding : String) : (keeping name feeding).Sound := by
  intro part
  cases part with
  | hypothesis => exact (Graph.wellFormed_empty.addConcepts _).addRelations _
  | mapping => exact Graph.wellFormed_ofStatements _ _
  | conclusion => exact (Graph.wellFormed_empty.addConcepts _).addRelations _

/-- The rule is taken apart into its parts under its name, or else under the second id of the source, as a
part uses the first. If both relations have one id it is not built. -/
theorem ofGraph_build_of_keeping :
    (∃ g rule, ((keeping (some "keeping") "feeding").build {}).1 = .ok g ∧ Rule.ofGraph g = .ok rule ∧
      rule.root = "keeping" ∧ rule.hypothesis = (keeping none "feeding").hypothesis) ∧
    (∃ g rule, ((keeping none "feeding").build {}).1 = .ok g ∧ Rule.ofGraph g = .ok rule ∧
      rule.root = "c2" ∧ rule.conclusion = (keeping none "feeding").conclusion) ∧
    (keeping none "having").Separate ∧
    ((keeping none "having").build {}).1 = .error (.duplicateRelation "having") := by
  have hnamed : (keeping (some "keeping") "feeding").Separate :=
    separate_of_lists (sound_keeping _ _) rfl rfl (by decide) (by decide) (by decide) (by decide)
  have hunnamed : (keeping none "feeding").Separate :=
    separate_of_lists (sound_keeping _ _) rfl rfl (by decide) (by decide) (by decide) (by decide)
  have hclash : (keeping none "having").Separate :=
    separate_of_lists (sound_keeping _ _) rfl rfl (by decide) (by decide) (by decide) (by decide)
  have hbuilt : ((keeping (some "keeping") "feeding").build {}).1.toOption.isSome = true := by
    decide +kernel
  have hbuilt' : ((keeping none "feeding").build {}).1.toOption.isSome = true := by decide +kernel
  have hunion : (keeping none "feeding").union.toOption.map (fun united =>
      (IdSource.drawFree {} united).1) = some "c2" := by decide +kernel
  obtain ⟨g, hg⟩ := Option.isSome_iff_exists.mp hbuilt
  obtain ⟨g', hg'⟩ := Option.isSome_iff_exists.mp hbuilt'
  obtain ⟨_, rule, -, hrule, hroot, hparts, -⟩ := (ofGraph_build hnamed {}).1 g (eq_ok_of_toOption hg)
  obtain ⟨united, rule', hu, hrule', hroot', hparts', -⟩ :=
    (ofGraph_build hunnamed {}).1 g' (eq_ok_of_toOption hg')
  refine ⟨⟨g, rule, eq_ok_of_toOption hg, hrule, hroot, hparts .hypothesis⟩,
    ⟨g', rule', eq_ok_of_toOption hg', hrule', ?_, hparts' .conclusion⟩, hclash, by decide +kernel⟩
  rw [hu] at hunion
  exact hroot'.trans (Option.some.inj hunion)

end RuleDraft

end KnowledgeGraph
