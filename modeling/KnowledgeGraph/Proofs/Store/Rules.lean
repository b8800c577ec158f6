import KnowledgeGraph.Proofs.Rule.Building
import KnowledgeGraph.Proofs.Store.Backends

/-!
# Rules side by side in a store

A store keeps all rules in one graph and gives out a rule as the part that its root and the concepts of
its parts span. Main statement: of two built rules that were saved each comes back with its concepts and
with all that either rule says of these, which is the rule as it was saved just when the other one says
nothing of them that the rule does not say under the same id.
-/

namespace KnowledgeGraph

/-- A rule graph that is built from well-formed parts under a name. -/
def RuleDraft.Built (root : String) (g : Graph) : Prop :=
  ∃ (draft : RuleDraft) (ids : IdSource), draft.Sound ∧ draft.name = some root ∧
    (draft.build ids).1 = .ok g

/-- A rule that is put together from parts has its root and the targets of the root, and nothing else. -/
theorem RuleDraft.Completes.spans {draft : RuleDraft} {root : String} {g : Graph}
    (hc : draft.Completes root g) (id : String) : g.hasConcept id = true ↔
      id ∈ root :: RulePart.all.flatMap fun part => g.targetsOf root part.type := by
  rw [List.mem_cons, List.mem_flatMap]
  constructor
  · intro hid
    rcases (hc.hasConcept_iff id).mp hid with rfl | ⟨part, hpart⟩
    · exact .inl rfl
    · refine .inr ⟨part, part.mem_all, Graph.mem_targetsOf.mpr ((hc.says_iff _).mpr (.inr (.inl ?_)))⟩
      exact mem_membership.mpr ⟨part, rfl, rfl, hpart⟩
  · rintro (rfl | ⟨part, -, htarget⟩)
    · exact (hc.hasConcept_iff id).mpr (.inl rfl)
    · exact (hc.wellFormed.ends_of_says (Graph.mem_targetsOf.mp htarget)).2

/-- A built rule is well-formed and has its root and the targets of the root, and nothing else. -/
theorem RuleDraft.Built.spans {root : String} {g : Graph} (h : RuleDraft.Built root g) :
    g.WellFormed ∧ ∀ id, g.hasConcept id = true ↔
      id ∈ root :: RulePart.all.flatMap fun part => g.targetsOf root part.type := by
  obtain ⟨draft, ids, hw, hn, hbuilt⟩ := h
  have hc := completes_of_build hw hn hbuilt
  exact ⟨hc.wellFormed, hc.spans⟩

namespace Graph

variable {own other merged first second : Graph} {root : String}

/-- A merged graph, seen from one of the two graphs in it. -/
structure Joins (own other merged : Graph) : Prop where
  /-- The merged graph is well-formed. -/
  wellFormed : merged.WellFormed
  /-- It has the concepts of the graph as they are. -/
  get?_concept : ∀ id concept, own.concepts.get? id = some concept →
    merged.concepts.get? id = some concept
  /-- It says what either graph says. -/
  says_iff : ∀ triple, merged.Says triple ↔ own.Says triple ∨ other.Says triple
  /-- Under an id that the other graph does not have stands what the graph has. -/
  of_none : ∀ id, other.relations.get? id = none → merged.relations.get? id = own.relations.get? id
  /-- A relation of the graph stands under its id with its triple. -/
  of_own : ∀ id relation, own.relations.get? id = some relation →
    ∃ kept, merged.relations.get? id = some kept ∧ kept.triple = relation.triple
  /-- And so does a relation of the other one. -/
  of_other : ∀ id relation, other.relations.get? id = some relation →
    ∃ kept, merged.relations.get? id = some kept ∧ kept.triple = relation.triple

section Merging

variable (hf : first.WellFormed) (hs : second.WellFormed) (ha : first.ConceptsAgree second)
  (hm : (first.merge second).toExcept = .ok merged)

include hf hs ha hm

/-- A merged graph as the first of the two sees it. -/
theorem joins_left : first.Joins second merged where
  wellFormed := (toExcept_eq_ok.mp hm).2 ▸ hf.merge second
  get?_concept := by
    intro id concept hc
    rw [← (toExcept_eq_ok.mp hm).2]
    exact (ha.get?_merge hs).mpr (.inl hc)
  says_iff _ := says_merge hm
  of_none id hn := by rw [← (toExcept_eq_ok.mp hm).2, get?_merge_of_none hs hn]
  of_own _ _ hr := get?_merge_left hm hr
  of_other _ _ hr := get?_merge_right hs hm hr

/-- A merged graph as the second of the two sees it. -/
theorem joins_right : second.Joins first merged where
  wellFormed := (toExcept_eq_ok.mp hm).2 ▸ hf.merge second
  get?_concept := by
    intro id concept hc
    rw [← (toExcept_eq_ok.mp hm).2]
    exact (ha.get?_merge hs).mpr (.inr hc)
  says_iff _ := (says_merge hm).trans or_comm
  of_none := by
    intro id hn
    cases hr : second.relations.get? id with
    | none => rw [← (toExcept_eq_ok.mp hm).2, get?_merge_of_none hs hr, hn]
    | some relation =>
      rw [get?_merge_of_some hs hm hr, annotated, relation?, hs.relation_id id relation hr, hn]
  of_own _ _ hr := get?_merge_right hs hm hr
  of_other _ _ hr := get?_merge_left hm hr

end Merging

namespace Joins

variable {id : String} {relation : Relation} (h : own.Joins other merged) (hown : own.WellFormed)
  {ids : List String} (hids : ∀ id, own.hasConcept id = true ↔ id ∈ ids)

include h hids

/-- The concepts of a graph span its own concepts in the merged graph. -/
theorem part_concepts : (merged.part ids).concepts = own.concepts := by
  ext id concept
  rw [h.wellFormed.part_concepts, Dict.get?_filter, Option.filter_eq_some_iff, List.contains_iff_mem,
    ← hids]
  constructor
  · rintro ⟨hg, hhas⟩
    obtain ⟨kept, hkept⟩ := hasConcept_iff.mp hhas
    rw [h.get?_concept id kept hkept] at hg
    rwa [← Option.some.inj hg]
  · intro hg
    exact ⟨h.get?_concept id concept hg, hasConcept_iff.mpr ⟨concept, hg⟩⟩

/-- When the part is the graph itself, a relation of the other one between its concepts is one that the
graph has under the same id, as it is in the merged graph. -/
theorem exists_of_part_eq (heq : merged.part ids = own)
    (hr : other.relations.get? id = some relation)
    (hs : own.hasConcept relation.triple.source = true)
    (ht : own.hasConcept relation.triple.target = true) :
    ∃ kept, own.relations.get? id = some kept ∧ merged.relations.get? id = some kept := by
  obtain ⟨kept, hkept, htriple⟩ := h.of_other id relation hr
  rw [← htriple, hids] at hs ht
  have hin := h.wellFormed.get?_part.mpr ⟨hkept, hs, ht⟩
  rw [heq] at hin
  exact ⟨kept, hin, hkept⟩

include hown

/-- The part says what the graph says, and what the other one says of its concepts. -/
theorem says_part {triple : Triple} : (merged.part ids).Says triple ↔
    own.Says triple ∨ other.Says triple ∧ own.hasConcept triple.source = true ∧
      own.hasConcept triple.target = true := by
  have hpart : (merged.part ids).Says triple ↔ merged.Says triple ∧
      own.hasConcept triple.source = true ∧ own.hasConcept triple.target = true := by
    simp only [Graph.says_iff, h.wellFormed.get?_part, hids]
    constructor
    · rintro ⟨id, relation, ⟨hg, hs, ht⟩, rfl⟩
      exact ⟨⟨id, relation, hg, rfl⟩, hs, ht⟩
    · rintro ⟨⟨id, relation, hg, rfl⟩, hs, ht⟩
      exact ⟨id, relation, ⟨hg, hs, ht⟩, rfl⟩
  rw [hpart, h.says_iff, or_and_right]
  refine or_congr_left (and_iff_left_of_imp ?_)
  rintro ⟨relation, hr, rfl⟩
  have hg := hown.mem_relationList.mp hr
  exact ⟨hown.source_mem _ _ hg, hown.target_mem _ _ hg⟩

omit hids in
/-- A relation between concepts of the graph stands in the graph as in the merged one, if that is so of
each relation of the other one. -/
theorem get?_merged_iff
    (hall : ∀ id relation, other.relations.get? id = some relation →
      own.hasConcept relation.triple.source = true → own.hasConcept relation.triple.target = true →
      ∃ kept, own.relations.get? id = some kept ∧ merged.relations.get? id = some kept) :
    merged.relations.get? id = some relation ∧
        own.hasConcept relation.triple.source = true ∧ own.hasConcept relation.triple.target = true ↔
      own.relations.get? id = some relation := by
  constructor
  · rintro ⟨hg, hs, ht⟩
    cases ho : other.relations.get? id with
    | none => rwa [h.of_none id ho] at hg
    | some found =>
      obtain ⟨kept, hkept, htriple⟩ := h.of_other id found ho
      rw [hg] at hkept
      cases hkept
      rw [htriple] at hs ht
      obtain ⟨same, hsame, hmerged⟩ := hall id found ho hs ht
      rw [hg] at hmerged
      cases hmerged
      exact hsame
  · intro hg
    have hs := hown.source_mem id relation hg
    have ht := hown.target_mem id relation hg
    refine ⟨?_, hs, ht⟩
    cases ho : other.relations.get? id with
    | none => rw [h.of_none id ho, hg]
    | some found =>
      obtain ⟨kept, hkept, htriple⟩ := h.of_own id relation hg
      obtain ⟨kept', hkept', htriple'⟩ := h.of_other id found ho
      rw [hkept] at hkept'
      cases hkept'
      rw [← htriple, htriple'] at hs ht
      obtain ⟨same, hsame, hmerged⟩ := hall id found ho hs ht
      rw [hg] at hsame
      cases hsame
      exact hmerged

/-- The part is the graph itself just when each relation of the other one between its concepts is one
that it has under the same id and that is as it was. -/
theorem part_eq_iff : merged.part ids = own ↔
    ∀ id relation, other.relations.get? id = some relation →
      own.hasConcept relation.triple.source = true → own.hasConcept relation.triple.target = true →
      ∃ kept, own.relations.get? id = some kept ∧ merged.relations.get? id = some kept := by
  refine ⟨fun heq id relation => h.exists_of_part_eq hids heq, fun hall => ?_⟩
  refine (h.wellFormed.part ids).eq_of_parts hown (h.part_concepts hids) ?_
  ext id relation
  rw [h.wellFormed.get?_part, ← hids, ← hids]
  exact h.get?_merged_iff hown hall

end Joins

end Graph

/-- A graph that its root and the targets of the root span is given out of a merged graph with its own
concepts, if the other graph says of none that it is in a part of the root. -/
theorem ruleNamed_of_spans {own other merged : Graph} {root : String} (h : own.Joins other merged)
    (hspans : ∀ id, own.hasConcept id = true ↔
      id ∈ root :: RulePart.all.flatMap fun part => own.targetsOf root part.type)
    (hfree : ∀ (part : RulePart) target, ¬other.Says ⟨root, part.type, target⟩) :
    ∃ ids, ruleNamed merged root = .ok (merged.part ids) ∧
      ∀ id, own.hasConcept id = true ↔ id ∈ ids := by
  refine ⟨root :: RulePart.all.flatMap fun part => merged.targetsOf root part.type, ?_, fun id => ?_⟩
  · obtain ⟨concept, hc⟩ := Graph.hasConcept_iff.mp ((hspans root).mpr List.mem_cons_self)
    have hroot : merged.hasConcept root = true :=
      Graph.hasConcept_iff.mpr ⟨concept, h.get?_concept root concept hc⟩
    rw [ruleNamed, hroot]
    rfl
  · have htargets : ∀ part : RulePart,
        id ∈ merged.targetsOf root part.type ↔ id ∈ own.targetsOf root part.type := by
      intro part
      rw [Graph.mem_targetsOf, Graph.mem_targetsOf, h.says_iff]
      exact or_iff_left (hfree part id)
    simp only [hspans, List.mem_cons, List.mem_flatMap, htargets]

/-- A rule is given out of a merged graph with its own concepts, if the other graph does not have its
root. -/
theorem ruleNamed_of_joins {own other merged : Graph} {root : String} (h : own.Joins other merged)
    (hb : RuleDraft.Built root own) (ho : other.WellFormed) (hfree : other.hasConcept root = false) :
    ∃ ids, ruleNamed merged root = .ok (merged.part ids) ∧
      ∀ id, own.hasConcept id = true ↔ id ∈ ids := by
  refine ruleNamed_of_spans h hb.spans.2 fun part target hsaid => ?_
  exact Bool.false_ne_true (hfree.symm.trans (ho.ends_of_says hsaid).1)

namespace Store

variable {store saved middle final : Store} {g other first second merged : Graph} {name name' : String}

/-- A store holds a graph, as it is or in its rows. -/
def Holds : Store → Graph → Prop
  | .memory stored, g => stored = g
  | .durable tables, g => tables.Represents g

/-- A store takes up a graph as it is: in memory always, in rows if these hold what is written. -/
def TakesUp : Store → Graph → Prop
  | .memory _, _ => True
  | .durable _, g => g.Rereads

/-- What a store holds is loaded from it. -/
theorem Holds.load_eq (h : store.Holds g) : store.load = .ok g := by
  cases store with
  | memory stored => exact congrArg Except.ok h
  | durable tables => exact Tables.Represents.load_eq h

/-- A store that saves a graph without fault holds it merged into what it held. -/
theorem Holds.save (h : store.Holds g) (ho : other.WellFormed) (ht : store.TakesUp other)
    (hs : store.save other = (saved, none)) :
    ∃ merged, (g.merge other).toExcept = .ok merged ∧ saved.Holds merged ∧
      ∀ next, store.TakesUp next → saved.TakesUp next := by
  cases store with
  | memory stored =>
    obtain rfl : stored = g := h
    obtain ⟨rfl, hfault⟩ := Prod.mk.inj hs
    exact ⟨_, Graph.toExcept_eq_ok.mpr ⟨hfault, rfl⟩, rfl, fun _ _ => trivial⟩
  | durable tables =>
    rcases Tables.Represents.save h ho ht with ⟨tables', hfault, hsave, hrep⟩ | ⟨id, -, hsave⟩
    · rw [Store.save, hsave] at hs
      obtain ⟨rfl, -⟩ := Prod.mk.inj hs
      exact ⟨_, Graph.toExcept_eq_ok.mpr ⟨hfault, rfl⟩, hrep, fun _ hk => hk⟩
    · rw [Store.save, hsave] at hs
      cases hs

/-- Two graphs that are saved to an empty store are merged there. -/
theorem merge_of_saves (hf : first.WellFormed) (hs : second.WellFormed) (hempty : store.Holds .empty)
    (ht : store.TakesUp first) (ht' : store.TakesUp second) (hsave : store.save first = (middle, none))
    (hsave' : middle.save second = (final, none)) :
    ∃ merged, (first.merge second).toExcept = .ok merged ∧ final.Holds merged := by
  obtain ⟨alone, hmerge, hholds, hkeeps⟩ := hempty.save hf ht hsave
  have hrebuild : Graph.empty.merge first = ⟨first, none⟩ := hf.rebuild
  rw [hrebuild] at hmerge
  cases hmerge
  obtain ⟨merged, hmerge', hholds', -⟩ := hholds.save hs (hkeeps second ht') hsave'
  exact ⟨merged, hmerge', hholds'⟩

/-- Two built rules that are saved one after the other to an empty store both come back, each with its own
concepts and with all that either says of these. A rule comes back as it was saved just when every
relation of the other one between its concepts has the id of one of its own, whose metadata it leaves. -/
theorem rules_of_saves (hf : RuleDraft.Built name first) (hs : RuleDraft.Built name' second)
    (hn : second.hasConcept name = false) (hn' : first.hasConcept name' = false)
    (ha : first.ConceptsAgree second) (hempty : store.Holds .empty) (ht : store.TakesUp first)
    (ht' : store.TakesUp second) (hsave : store.save first = (middle, none))
    (hsave' : middle.save second = (final, none)) :
    ∃ rule rule', final.rule name = .ok rule ∧ final.rule name' = .ok rule' ∧
      rule.concepts = first.concepts ∧ rule'.concepts = second.concepts ∧
      (∀ triple, rule.Says triple ↔ first.Says triple ∨ second.Says triple ∧
        first.hasConcept triple.source = true ∧ first.hasConcept triple.target = true) ∧
      (∀ triple, rule'.Says triple ↔ second.Says triple ∨ first.Says triple ∧
        second.hasConcept triple.source = true ∧ second.hasConcept triple.target = true) ∧
      (rule = first ↔ ∀ id relation, second.relations.get? id = some relation →
        first.hasConcept relation.triple.source = true →
        first.hasConcept relation.triple.target = true →
        ∃ own, first.relations.get? id = some own ∧ own.annotate relation.metadata = own) ∧
      (rule' = second ↔ ∀ id relation, first.relations.get? id = some relation →
        second.hasConcept relation.triple.source = true →
        second.hasConcept relation.triple.target = true →
        ∃ own, second.relations.get? id = some own ∧ relation.annotate own.metadata = own) := by
  obtain ⟨hfirst, -⟩ := hf.spans
  obtain ⟨hsecond, -⟩ := hs.spans
  obtain ⟨merged, hm, hholds⟩ := merge_of_saves hfirst hsecond hempty ht ht' hsave hsave'
  have hleft := Graph.joins_left hfirst hsecond ha hm
  have hright := Graph.joins_right hfirst hsecond ha hm
  obtain ⟨ids, hrule, hids⟩ := ruleNamed_of_joins hleft hf hsecond hn
  obtain ⟨ids', hrule', hids'⟩ := ruleNamed_of_joins hright hs hfirst hn'
  have hgives : ∀ name, final.rule name = ruleNamed merged name := by
    intro name
    rw [rule, hholds.load_eq]
    rfl
  refine ⟨merged.part ids, merged.part ids', (hgives _).trans hrule, (hgives _).trans hrule',
    hleft.part_concepts hids, hright.part_concepts hids', fun _ => hleft.says_part hfirst hids,
    fun _ => hright.says_part hsecond hids', ?_, ?_⟩
  · rw [hleft.part_eq_iff hfirst hids]
    refine forall₂_congr fun id relation => forall₃_congr fun hr _ _ => exists_congr fun own => ?_
    refine and_congr_right fun hown => ?_
    rw [Graph.get?_merge_of_some hsecond hm hr, Graph.annotated, Graph.relation?,
      hsecond.relation_id id relation hr, hown, Option.some.injEq]
  · rw [hright.part_eq_iff hsecond hids']
    refine forall₂_congr fun id relation => forall₃_congr fun hr _ _ => exists_congr fun own => ?_
    refine and_congr_right fun hown => ?_
    rw [Graph.get?_merge_of_some hsecond hm hown, Graph.annotated, Graph.relation?,
      hsecond.relation_id id own hown, hr, Option.some.injEq]

/-- Everything stands in a relation to something. -/
def everyRule (name type kind : String) : RuleDraft where
  name := some name
  hypothesis := .ofStatements ["?x"] []
  conclusion := .ofStatements ["?x", kind] [⟨"?x", type, kind⟩]

/-- The rule graph of the draft. -/
def everyGraph (name type kind : String) : Graph :=
  .ofStatements [name, "?x", kind]
    [⟨"?x", type, kind⟩, ⟨name, "has_hypothesis", "?x"⟩, ⟨name, "has_conclusion", "?x"⟩,
      ⟨name, "has_conclusion", kind⟩]

/-- The rule is built from well-formed parts. -/
theorem built_everyRule {type kind : String}
    (h : ((everyRule name type kind).build {}).1 = .ok (everyGraph name type kind)) :
    RuleDraft.Built name (everyGraph name type kind) := by
  refine ⟨everyRule name type kind, {}, fun part => ?_, rfl, h⟩
  cases part with
  | hypothesis => exact Graph.wellFormed_ofStatements _ _
  | mapping => exact Graph.wellFormed_empty
  | conclusion => exact Graph.wellFormed_ofStatements _ _

/-- Everything is a thing. -/
def being : Graph := everyGraph "being" "is" "thing"

/-- Everything owns something. -/
def owning (kind : String) : Graph := everyGraph "owning" "owns" kind

/-- The first rule is built. -/
theorem built_being : RuleDraft.Built "being" being :=
  built_everyRule (by decide +kernel)

/-- The rules share no more than one concept, and new tables give out both as they were saved. -/
theorem rules_of_saves_of_one_shared :
    ∃ middle final, (durable .new).save being = (middle, none) ∧
      middle.save (owning "name") = (final, none) ∧ final.rule "being" = .ok being ∧
      final.rule "owning" = .ok (owning "name") := by
  have howning : RuleDraft.Built "owning" (owning "name") := built_everyRule (by decide +kernel)
  have hagree : being.ConceptsAgree (owning "name") :=
    RuleDraft.conceptsAgree_of_shaped (.ofStatements _ _) (.ofStatements _ _)
  have hrows : being.Rereads := Tables.rereads_of_lists (by decide +kernel) (by decide +kernel)
  have hrows' : (owning "name").Rereads := Tables.rereads_of_lists (by decide +kernel) (by decide +kernel)
  have hempty : (durable .new).Holds .empty := Tables.represents_new
  have hsave : (durable .new).save being = (((durable .new).save being).1, none) :=
    Prod.ext rfl (by decide +kernel)
  have hsave' : (((durable .new).save being).1).save (owning "name") =
      ((((durable .new).save being).1.save (owning "name")).1, none) :=
    Prod.ext rfl (by decide +kernel)
  obtain ⟨rule, rule', hrule, hrule', -, -, -, -, hsame, hsame'⟩ :=
    rules_of_saves built_being howning (by decide +kernel) (by decide +kernel) hagree hempty hrows hrows'
      hsave hsave'
  have houtside : ∀ relation ∈ (owning "name").relationList,
      being.hasConcept relation.triple.source = true →
      being.hasConcept relation.triple.target = true → False := by decide +kernel
  have houtside' : ∀ relation ∈ being.relationList,
      (owning "name").hasConcept relation.triple.source = true →
      (owning "name").hasConcept relation.triple.target = true → False := by decide +kernel
  have heq : rule = being := hsame.mpr fun id relation hr hs ht =>
    (houtside relation (Dict.mem_values.mpr ⟨id, hr⟩) hs ht).elim
  have heq' : rule' = owning "name" := hsame'.mpr fun id relation hr hs ht =>
    (houtside' relation (Dict.mem_values.mpr ⟨id, hr⟩) hs ht).elim
  rw [heq] at hrule
  rw [heq'] at hrule'
  exact ⟨_, _, hsave, hsave', hrule, hrule'⟩

/-- The rules share both concepts of their conclusions, and the first comes back with the conclusion of the
second. -/
theorem not_rules_of_saves_of_two_shared :
    ¬∀ (store middle final : Store) (first second : Graph) (name name' : String),
      RuleDraft.Built name first → RuleDraft.Built name' second →
      second.hasConcept name = false → first.hasConcept name' = false →
      first.ConceptsAgree second → store.Holds .empty → store.TakesUp first →
      store.TakesUp second → store.save first = (middle, none) →
      middle.save second = (final, none) →
      final.rule name = .ok first ∧ final.rule name' = .ok second := by
  intro hall
  have howning : RuleDraft.Built "owning" (owning "thing") := built_everyRule (by decide +kernel)
  have hagree : being.ConceptsAgree (owning "thing") :=
    RuleDraft.conceptsAgree_of_shaped (.ofStatements _ _) (.ofStatements _ _)
  have hsave : (memory .empty).save being = (((memory .empty).save being).1, none) :=
    Prod.ext rfl (by decide +kernel)
  have hsave' : (((memory .empty).save being).1).save (owning "thing") =
      ((((memory .empty).save being).1.save (owning "thing")).1, none) :=
    Prod.ext rfl (by decide +kernel)
  obtain ⟨hsame, -⟩ := hall (memory .empty) _ _ being (owning "thing") "being" "owning" built_being
    howning (by decide +kernel) (by decide +kernel) hagree rfl trivial trivial hsave hsave'
  have hother : ((((memory .empty).save being).1.save (owning "thing")).1.rule
      "being").toOption.map (fun rule => decide (rule.Says ⟨"?x", "owns", "thing"⟩)) = some true := by
    decide +kernel
  rw [hsame] at hother
  exact absurd hother (by decide)

end Store

end KnowledgeGraph
