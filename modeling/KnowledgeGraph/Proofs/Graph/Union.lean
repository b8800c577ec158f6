import KnowledgeGraph.Proofs.Graph.Substitution

/-!
# The union of two graphs

Merging lays the concepts and the relations of one graph over those of another. It is refused just when
an id stands for one triple in the first graph and for another one in the second; it then stops at the
least such id, with all concepts laid and with the relations laid whose ids come before. Where it is not
refused it may be repeated without effect, three graphs may be merged from either side, and graphs that
share no concept keep their relations as they are. Main statement: `merge_unites`.
-/

namespace KnowledgeGraph

/-- A concept has the attributes of one laid over another: a description and a mark of its own, and of
metadata members with one key that of the upper one. -/
structure Concept.Unites (below above both : Concept) : Prop where
  /-- The id is the common one. -/
  id_eq : both.id = below.id
  /-- The upper description is taken. -/
  description_eq : both.description = above.description
  /-- The concept is unknown if the upper one is. -/
  isUnknown_eq : both.isUnknown = above.isUnknown
  /-- A member of the upper metadata hides one of the lower with its key. -/
  metadata_eq : ∀ key, both.metadata.get? key = (above.metadata.get? key).or (below.metadata.get? key)

/-- A relation says what two relations say and has the metadata of one laid over that of the other. -/
structure Relation.Unites (below above both : Relation) : Prop where
  /-- The id is the common one. -/
  id_eq : both.id = below.id
  /-- The lower relation says the same. -/
  triple_below : both.triple = below.triple
  /-- The upper relation says the same. -/
  triple_above : both.triple = above.triple
  /-- A member of the upper metadata hides one of the lower with its key. -/
  metadata_eq : ∀ key, both.metadata.get? key = (above.metadata.get? key).or (below.metadata.get? key)

/-- What stands under an id where entries are laid over others: the entry of one side where the other has
none, and else one that unites both. -/
inductive Entry {α : Type} (unites : α → α → α → Prop) : Option α → Option α → Option α → Prop where
  /-- Nothing is laid over what is there. -/
  | kept (below : Option α) : Entry unites below none below
  /-- An entry is laid where there was none. -/
  | entered (above : α) : Entry unites none (some above) (some above)
  /-- An entry is laid over another one. -/
  | united {below above both : α} (h : unites below above both) :
    Entry unites (some below) (some above) (some both)

/-- An entry laid over what stands under its id, if there is one to lay. -/
def laid {α : Type} (lay : Option α → α → α) (below above : Option α) : Option α :=
  (above.map (lay below)).or below

/-- Laying the same entry a second time changes nothing. -/
theorem laid_laid {α : Type} {lay : Option α → α → α} {below above : Option α}
    (h : ∀ upper, lay (some (lay below upper)) upper = lay below upper) :
    laid lay (laid lay below above) above = laid lay below above := by
  cases above with
  | none => rfl
  | some upper => exact congrArg some (h upper)

/-- Entries may be laid on one another from above or from below. -/
theorem laid_assoc {α : Type} {lay : Option α → α → α} {below middle above : Option α}
    (hnone : ∀ upper, lay none upper = upper)
    (hsome : ∀ lower centre upper : α, lay (some (lay (some lower) centre)) upper =
      lay (some lower) (lay (some centre) upper)) :
    laid lay (laid lay below middle) above = laid lay below (laid lay middle above) := by
  cases above with
  | none => rfl
  | some upper =>
    cases middle with
    | none =>
      refine congrArg some ?_
      change lay below upper = lay below (lay none upper)
      rw [hnone]
    | some centre =>
      refine congrArg some ?_
      cases below with
      | none =>
        change lay (some (lay none centre)) upper = lay none (lay (some centre) upper)
        rw [hnone, hnone]
      | some lower => exact hsome lower centre upper

/-- Three dictionaries may be laid on one another from either side. -/
theorem Dict.extend_assoc {α : Type} (first second third : Dict α) :
    (first.extend second).extend third = first.extend (second.extend third) := by
  ext key : 1
  rw [get?_extend, get?_extend, get?_extend, get?_extend, Option.or_assoc]

/-- What is laid over what is there unites the two, if every two entries do. -/
theorem entry_laid {α : Type} {lay : Option α → α → α} {unites : α → α → α → Prop}
    {below above : Option α} (hnone : ∀ upper, lay none upper = upper)
    (hsome : ∀ lower upper, below = some lower → above = some upper →
      unites lower upper (lay (some lower) upper)) :
    Entry unites below above (laid lay below above) := by
  cases above with
  | none => exact .kept below
  | some upper =>
    cases below with
    | none =>
      change Entry unites none (some upper) (some (lay none upper))
      rw [hnone]
      exact .entered upper
    | some lower => exact .united (hsome lower upper rfl rfl)

/-- A concept stays the same when it is laid over what it was laid over before. -/
theorem Concept.over_over (below : Option Concept) (upper : Concept) :
    Concept.over (some (Concept.over below upper)) upper = Concept.over below upper := by
  cases below <;> simp [Concept.over, overlay]

/-- Three concepts may be laid on one another from either side. -/
theorem Concept.over_assoc (lower centre upper : Concept) :
    Concept.over (some (Concept.over (some lower) centre)) upper =
      Concept.over (some lower) (Concept.over (some centre) upper) := by
  simp [Concept.over, overlay, Dict.extend_assoc]

/-- A relation stays the same when it is laid over what it was laid over before. -/
theorem Relation.over_over (below : Option Relation) (upper : Relation) :
    Relation.over (some (Relation.over below upper)) upper = Relation.over below upper := by
  cases below <;> simp [Relation.over, annotate]

/-- Three relations may be laid on one another from either side. -/
theorem Relation.over_assoc (lower centre upper : Relation) :
    Relation.over (some (Relation.over (some lower) centre)) upper =
      Relation.over (some lower) (Relation.over (some centre) upper) := by
  simp [Relation.over, annotate, Dict.extend_assoc]

/-- Concepts that are laid over others unite with them. -/
theorem Concept.entry_laid (below above : Option Concept) :
    Entry Unites below above (laid Concept.over below above) :=
  KnowledgeGraph.entry_laid (fun _ => rfl) fun _ _ _ _ => ⟨rfl, rfl, rfl, Dict.get?_extend _ _⟩

/-- Relations that are laid over others that say the same unite with them. -/
theorem Relation.entry_laid {below above : Option Relation}
    (h : ∀ lower upper, below = some lower → above = some upper → lower.triple = upper.triple) :
    Entry Unites below above (laid Relation.over below above) :=
  KnowledgeGraph.entry_laid (fun _ => rfl) fun lower upper hl hu =>
    ⟨rfl, rfl, h lower upper hl hu, Dict.get?_extend _ _⟩

namespace Graph

variable {g g' other third merged : Graph} {relation : Relation} {relations : List Relation}
  {id : String} {fault : Fault}

/-- The concepts of a merged graph are those of the second one laid over those of the first, also where
the merging stops. -/
theorem get?_merge_concepts (ho : other.WellFormed) (id : String) :
    (g.merge other).graph.concepts.get? id =
      laid Concept.over (g.concepts.get? id) (other.concepts.get? id) := by
  rw [merge, addRelations_concepts, addConcepts_concepts]
  cases hc : other.concepts.get? id with
  | some concept =>
    have hid := ho.concept_id id concept hc
    subst hid
    exact Dict.get?_layAll_of_mem ho.nodup_conceptIds (ho.mem_conceptList.mpr hc)
  | none =>
    refine Dict.get?_layAll_of_ne fun concept hm hid => ?_
    subst hid
    rw [ho.mem_conceptList.mp hm] at hc
    cases hc

/-- The relations of a merged graph are those of the second one laid over those of the first. -/
theorem get?_merge_relations (ho : other.WellFormed) (h : (g.merge other).toExcept = .ok merged)
    (id : String) : merged.relations.get? id =
      laid Relation.over (g.relations.get? id) (other.relations.get? id) := by
  cases hr : other.relations.get? id with
  | some relation =>
    have hid := ho.relation_id id relation hr
    subst hid
    exact get?_merge_of_some ho h hr
  | none =>
    rw [← (toExcept_eq_ok.mp h).2]
    exact get?_merge_of_none ho hr

/-- An id stands for one triple in a graph and for another one in a second graph. -/
def Conflicts (g other : Graph) (id : String) : Prop :=
  ∃ first second, g.SaysUnder id first ∧ other.SaysUnder id second ∧ first ≠ second

/-- Relations with ids of their own fit a graph when each says what the graph says under its id. -/
theorem accepts_of_nodup (hn : (relations.map (·.id)).Nodup) :
    g.Accepts relations ↔ ∀ relation ∈ relations, ∀ stored,
      g.relations.get? relation.id = some stored → stored.triple = relation.triple := by
  refine ⟨Accepts.beside, fun hbeside => ⟨?_, hbeside⟩⟩
  exact (List.pairwise_map.mp hn).imp fun hne same => absurd same hne

/-- The relations of a graph lead between concepts that are there once its concepts are. -/
theorem ends_of_addConcepts (ho : other.WellFormed) : ∀ relation ∈ other.relationList,
    (g.addConcepts other.conceptList).hasConcept relation.triple.source = true ∧
      (g.addConcepts other.conceptList).hasConcept relation.triple.target = true := by
  intro relation hr
  have hg := ho.mem_relationList.mp hr
  simp only [hasConcept_addConcepts, ho.exists_mem_conceptList]
  exact ⟨.inl (ho.source_mem _ _ hg), .inl (ho.target_mem _ _ hg)⟩

/-- Merging is refused just when an id stands for two triples. -/
theorem merge_fault_eq_none_iff (ho : other.WellFormed) :
    (g.merge other).fault = none ↔ ∀ id, ¬g.Conflicts other id := by
  rw [merge, addRelations_fault_eq_none_iff (ends_of_addConcepts ho),
    accepts_of_nodup ho.nodup_relationIds]
  simp only [addConcepts_relations]
  constructor
  · rintro hall id ⟨_, _, ⟨first, hf, rfl⟩, ⟨second, hs, rfl⟩, hne⟩
    have hid := ho.relation_id id second hs
    subst hid
    exact hne (hall second (ho.mem_relationList.mpr hs) first hf)
  · intro hnone relation hr stored hg
    by_contra hne
    exact hnone relation.id ⟨_, _, ⟨stored, hg, rfl⟩,
      ⟨relation, ho.mem_relationList.mp hr, rfl⟩, hne⟩

/-- Relations with one id say the same where it stands for one triple. -/
theorem triple_eq_of_not_conflicts (h : ¬g.Conflicts other id) {lower upper : Relation}
    (hl : g.relations.get? id = some lower) (hu : other.relations.get? id = some upper) :
    lower.triple = upper.triple := by
  by_contra hne
  exact h ⟨_, _, ⟨lower, hl, rfl⟩, ⟨upper, hu, rfl⟩, hne⟩

/-- A merged graph says under an id what either graph says under it. -/
theorem saysUnder_merge (ho : other.WellFormed) (h : (g.merge other).toExcept = .ok merged)
    {triple : Triple} :
    merged.SaysUnder id triple ↔ g.SaysUnder id triple ∨ other.SaysUnder id triple := by
  constructor
  · rintro ⟨relation, hr, rfl⟩
    cases hu : other.relations.get? id with
    | none =>
      rw [← (toExcept_eq_ok.mp h).2, get?_merge_of_none ho hu] at hr
      exact .inl ⟨relation, hr, rfl⟩
    | some upper =>
      obtain ⟨kept, hk, ht⟩ := get?_merge_right ho h hu
      rw [hr] at hk
      cases hk
      exact .inr ⟨upper, hu, ht.symm⟩
  · rintro (⟨lower, hl, rfl⟩ | ⟨upper, hu, rfl⟩)
    · exact get?_merge_left h hl
    · exact get?_merge_right ho h hu

/-- A graph conflicts with a merged one where it does with one of the two. -/
theorem conflicts_merge_right (ho : third.WellFormed) (h : (other.merge third).toExcept = .ok merged) :
    g.Conflicts merged id ↔ g.Conflicts other id ∨ g.Conflicts third id := by
  simp only [Conflicts, saysUnder_merge ho h, or_and_right, and_or_left, exists_or]

/-- A merged graph conflicts with another one where one of the two does. -/
theorem conflicts_merge_left (ho : other.WellFormed) (h : (g.merge other).toExcept = .ok merged) :
    merged.Conflicts third id ↔ g.Conflicts third id ∨ other.Conflicts third id := by
  simp only [Conflicts, saysUnder_merge ho h, or_and_right, exists_or]

/-- Merging has a result where no id stands for two triples. -/
theorem exists_merge_iff (ho : other.WellFormed) :
    (∃ merged, (g.merge other).toExcept = .ok merged) ↔ ∀ id, ¬g.Conflicts other id :=
  exists_toExcept_iff.trans (merge_fault_eq_none_iff ho)

/-- Two graphs share no concept. -/
def Foreign (g other : Graph) : Prop :=
  ∀ id, g.hasConcept id = true → ¬other.hasConcept id = true

/-- Graphs that share no concept are merged without changing their relations. -/
theorem Foreign.get?_merge (hf : g.Foreign other) (h : g.WellFormed) (ho : other.WellFormed)
    (hm : (g.merge other).toExcept = .ok merged) {id : String} {relation : Relation} :
    merged.relations.get? id = some relation ↔
      g.relations.get? id = some relation ∨ other.relations.get? id = some relation := by
  rw [get?_merge_relations ho hm]
  cases hu : other.relations.get? id with
  | none => simp [laid]
  | some upper =>
    have hnone : g.relations.get? id = none := by
      refine Option.eq_none_iff_forall_ne_some.mpr fun lower hl => ?_
      have hconflict := (exists_merge_iff ho).mp ⟨merged, hm⟩ id
      have hsame := triple_eq_of_not_conflicts hconflict hl hu
      have hsource := h.source_mem id lower hl
      exact hf _ hsource (hsame ▸ ho.source_mem id upper hu)
    simp [hnone, laid, Relation.over]

/-- What a graph is merged to changes no more when the same graph is merged into it again. -/
theorem merge_merge_self (hg : g.WellFormed) (ho : other.WellFormed)
    (h : (g.merge other).toExcept = .ok merged) : merged.merge other = ⟨merged, none⟩ := by
  have hnone := (exists_merge_iff ho).mp ⟨merged, h⟩
  have hself : ∀ id, ¬other.Conflicts other id := by
    rintro id ⟨_, _, ⟨first, hf, rfl⟩, ⟨second, hs, rfl⟩, hne⟩
    rw [hf] at hs
    cases hs
    exact hne rfl
  have hagain : ∃ again, (merged.merge other).toExcept = .ok again := by
    refine (exists_merge_iff ho).mpr fun id hc => ?_
    rcases (conflicts_merge_left ho h).mp hc with hc | hc
    · exact hnone id hc
    · exact hself id hc
  obtain ⟨again, hagain⟩ := hagain
  have hmerged : (g.merge other).graph = merged := (toExcept_eq_ok.mp h).2
  have hleft : (merged.merge other).graph = again := (toExcept_eq_ok.mp hagain).2
  have hconcepts : again.concepts = merged.concepts := by
    ext id : 1
    rw [← hleft, get?_merge_concepts ho, ← hmerged, get?_merge_concepts ho]
    exact laid_laid (Concept.over_over _)
  have hrelations : again.relations = merged.relations := by
    ext id : 1
    rw [get?_merge_relations ho hagain, get?_merge_relations ho h]
    exact laid_laid (Relation.over_over _)
  have hwell : merged.WellFormed := hmerged ▸ hg.merge other
  have hwell' : again.WellFormed := hleft ▸ hwell.merge other
  rw [eq_mk_of_toExcept hagain, hwell'.eq_of_parts hwell hconcepts hrelations]

/-- Two graphs are merged into a third one on one way just when they are on the other. -/
theorem exists_merge_assoc_iff (ho : other.WellFormed) (ht : third.WellFormed) :
    (∃ merged, (g.merge other).toExcept = .ok merged ∧
        ∃ final, (merged.merge third).toExcept = .ok final) ↔
      ∃ merged, (other.merge third).toExcept = .ok merged ∧
        ∃ final, (g.merge merged).toExcept = .ok final := by
  constructor
  · rintro ⟨merged, hm, hfinal⟩
    have hfirst := (exists_merge_iff ho).mp ⟨merged, hm⟩
    have hboth := (exists_merge_iff ht).mp hfinal
    simp only [conflicts_merge_left ho hm, not_or] at hboth
    obtain ⟨upper, hu⟩ := (exists_merge_iff ht).mpr fun id => (hboth id).2
    have hwell : upper.WellFormed := (toExcept_eq_ok.mp hu).2 ▸ ho.merge third
    refine ⟨upper, hu, (exists_merge_iff hwell).mpr fun id => ?_⟩
    rw [conflicts_merge_right ht hu, not_or]
    exact ⟨hfirst id, (hboth id).1⟩
  · rintro ⟨upper, hu, hfinal⟩
    have hwell : upper.WellFormed := (toExcept_eq_ok.mp hu).2 ▸ ho.merge third
    have hlast := (exists_merge_iff ht).mp ⟨upper, hu⟩
    have hboth := (exists_merge_iff hwell).mp hfinal
    simp only [conflicts_merge_right ht hu, not_or] at hboth
    obtain ⟨merged, hm⟩ := (exists_merge_iff ho).mpr fun id => (hboth id).1
    refine ⟨merged, hm, (exists_merge_iff ht).mpr fun id => ?_⟩
    rw [conflicts_merge_left ho hm, not_or]
    exact ⟨(hboth id).2, hlast id⟩

/-- Both ways of merging two graphs into a third one give one graph. -/
theorem merge_assoc_eq {upper final final' : Graph} (hg : g.WellFormed) (ho : other.WellFormed)
    (ht : third.WellFormed) (hm : (g.merge other).toExcept = .ok merged)
    (hf : (merged.merge third).toExcept = .ok final) (hu : (other.merge third).toExcept = .ok upper)
    (hf' : (g.merge upper).toExcept = .ok final') : final = final' := by
  have hmerged : (g.merge other).graph = merged := (toExcept_eq_ok.mp hm).2
  have hupper : (other.merge third).graph = upper := (toExcept_eq_ok.mp hu).2
  have hfinal : (merged.merge third).graph = final := (toExcept_eq_ok.mp hf).2
  have hfinal' : (g.merge upper).graph = final' := (toExcept_eq_ok.mp hf').2
  have hwell : upper.WellFormed := hupper ▸ ho.merge third
  have hconcepts : final.concepts = final'.concepts := by
    ext id : 1
    rw [← hfinal, ← hfinal', get?_merge_concepts ht, get?_merge_concepts hwell, ← hmerged, ← hupper,
      get?_merge_concepts ho, get?_merge_concepts ht]
    exact laid_assoc (fun _ => rfl) Concept.over_assoc
  have hrelations : final.relations = final'.relations := by
    ext id : 1
    rw [get?_merge_relations ht hf, get?_merge_relations hwell hf', get?_merge_relations ho hm,
      get?_merge_relations ht hu]
    exact laid_assoc (fun _ => rfl) Relation.over_assoc
  have hwell' : final.WellFormed := hfinal ▸ (hmerged ▸ hg.merge other : merged.WellFormed).merge third
  exact hwell'.eq_of_parts (hfinal' ▸ hg.merge upper) hconcepts hrelations

/-- Two graphs may be merged into a third one in turn or together. -/
theorem merge_merge_eq_ok_iff {final : Graph} (hg : g.WellFormed) (ho : other.WellFormed)
    (ht : third.WellFormed) :
    (∃ merged, (g.merge other).toExcept = .ok merged ∧ (merged.merge third).toExcept = .ok final) ↔
      ∃ merged, (other.merge third).toExcept = .ok merged ∧ (g.merge merged).toExcept = .ok final := by
  constructor
  · rintro ⟨merged, hm, hf⟩
    obtain ⟨upper, hu, final', hf'⟩ := (exists_merge_assoc_iff ho ht).mp ⟨merged, hm, final, hf⟩
    rw [merge_assoc_eq hg ho ht hm hf hu hf']
    exact ⟨upper, hu, hf'⟩
  · rintro ⟨upper, hu, hf'⟩
    obtain ⟨merged, hm, final', hf⟩ := (exists_merge_assoc_iff ho ht).mpr ⟨upper, hu, final, hf'⟩
    rw [← merge_assoc_eq hg ho ht hm hf hu hf']
    exact ⟨merged, hm, hf⟩

/-- Relations that are not all added were added up to the first that is refused. -/
theorem exists_of_addRelations_fault (h : (g.addRelations relations).fault = some fault) :
    ∃ front relation rest, relations = front ++ relation :: rest ∧
      (g.addRelations front).toExcept = .ok (g.addRelations relations).graph ∧
      (g.addRelations relations).graph.addRelation relation = .error fault := by
  induction relations generalizing g with
  | nil => cases h
  | cons head rest ih =>
    rw [addRelations] at h ⊢
    cases ha : g.addRelation head with
    | ok next =>
      rw [ha] at h
      obtain ⟨front, relation, others, hsplit, hfront, hrefused⟩ := ih h
      refine ⟨head :: front, relation, others, ?_, ?_, hrefused⟩
      · rw [hsplit, List.cons_append]
      · exact addRelations_cons_eq_ok.mpr ⟨next, ha, hfront⟩
    | error refused =>
      rw [ha] at h
      cases h
      exact ⟨[], head, rest, rfl, rfl, ha⟩

/-- A relation between concepts of a graph is refused for what stands under its id. -/
theorem addRelation_eq_error (hs : g.hasConcept relation.triple.source = true)
    (ht : g.hasConcept relation.triple.target = true) (h : g.addRelation relation = .error fault) :
    fault = .duplicateRelation relation.id ∧
      ∃ stored, g.relations.get? relation.id = some stored ∧ stored.triple ≠ relation.triple := by
  rw [addRelation_of_ends hs ht] at h
  cases hg : g.relations.get? relation.id with
  | none =>
    rw [hg] at h
    cases h
  | some stored =>
    simp only [hg] at h
    split at h
    next => cases h
    next hne =>
      cases h
      exact ⟨rfl, stored, rfl, hne⟩

/-- Between concepts of a graph a triple is refused only because its id stands for another one. -/
theorem fault_of_addTripleIfAbsent {triple : Triple} (hs : g.hasConcept triple.source = true)
    (ht : g.hasConcept triple.target = true) (h : g.addTripleIfAbsent triple = .error fault) :
    ∃ id, fault = .duplicateRelation id := by
  rw [addTripleIfAbsent_of_ends hs ht] at h
  split at h
  next => cases h
  next =>
    cases ha : g.addRelation (.ofTriple triple) with
    | ok next =>
      rw [ha] at h
      cases h
    | error refused =>
      rw [ha] at h
      cases h
      exact ⟨_, (addRelation_eq_error hs ht ha).1⟩

/-- Relations between concepts of a graph that are not all added do not fit: the fault names an id that
stands for two triples among them and those of the graph. -/
theorem WellFormed.exists_of_addRelations_fault (h : g.WellFormed)
    (he : ∀ relation ∈ relations, g.hasConcept relation.triple.source = true ∧
      g.hasConcept relation.triple.target = true) (hf : (g.addRelations relations).fault = some fault) :
    ∃ first second, g.Among relations first ∧ g.Among relations second ∧ first.id = second.id ∧
      first.triple ≠ second.triple ∧ fault = .duplicateRelation first.id := by
  obtain ⟨front, relation, rest, hsplit, hfront, hrefused⟩ := Graph.exists_of_addRelations_fault hf
  have hmem : relation ∈ relations := hsplit ▸ List.mem_append_right _ List.mem_cons_self
  have hsame : ∀ id, (g.addRelations relations).graph.hasConcept id = g.hasConcept id := fun id => by
    rw [hasConcept, hasConcept, addRelations_concepts]
  obtain ⟨hs, ht⟩ := he relation hmem
  obtain ⟨rfl, stored, hstored, hne⟩ :=
    addRelation_eq_error ((hsame _).trans hs) ((hsame _).trans ht) hrefused
  rw [← (toExcept_eq_ok.mp hfront).2] at hstored
  rcases get?_addRelations_cases hstored with ⟨before, hb, hbefore⟩ | ⟨earlier, hr, hid, hearlier⟩
  · have hid := h.relation_id _ before hb
    exact ⟨relation, before, .inl hmem, .inr (hid ▸ hb), hid.symm, fun same =>
      hne (hbefore.symm.trans same.symm), rfl⟩
  · have hlisted : earlier ∈ relations := hsplit ▸ List.mem_append_left _ hr
    exact ⟨relation, earlier, .inl hmem, .inl hlisted, hid.symm, fun same =>
      hne (hearlier.symm.trans same.symm), rfl⟩

/-- A graph is left where merging stops at an id: all concepts are laid, and of the relations those whose
ids come before. -/
structure StopsAt (g other left : Graph) (id : String) : Prop where
  /-- The id stands for two triples. -/
  conflicts : g.Conflicts other id
  /-- No id before it does. -/
  least : ∀ earlier, g.Conflicts other earlier → id ≤ earlier
  /-- The concepts are laid over those that are there. -/
  concepts : ∀ key, Entry Concept.Unites (g.concepts.get? key) (other.concepts.get? key)
    (left.concepts.get? key)
  /-- So are the relations with ids before it. -/
  before : ∀ key, key < id → Entry Relation.Unites (g.relations.get? key) (other.relations.get? key)
    (left.relations.get? key)
  /-- All other relations are as they were. -/
  behind : ∀ key, id ≤ key → left.relations.get? key = g.relations.get? key

/-- What is added without fault says what stands under its id. -/
theorem triple_eq_of_addRelations {stored : Relation} (h : (g.addRelations relations).toExcept = .ok g')
    (hr : relation ∈ relations) (hs : g.relations.get? relation.id = some stored) :
    stored.triple = relation.triple := by
  obtain ⟨entered, he, hsame⟩ := get?_addRelations_of_mem h hr
  obtain ⟨kept, hk, hsame'⟩ := @get?_addRelations_of_some _ _ relations _ hs
  rw [(toExcept_eq_ok.mp h).2, he] at hk
  cases hk
  exact hsame'.symm.trans hsame

section Front

variable {front rest : List Relation} {left : Graph} {key : String} (ho : other.WellFormed)
  (hsplit : other.relationList = front ++ relation :: rest)
  (hfront : ((g.addConcepts other.conceptList).addRelations front).toExcept = .ok left)

include ho hsplit

/-- Relations are listed in the order of their ids. -/
theorem ascending_of_split : ((front ++ relation :: rest).map (·.id)).Pairwise (· < ·) := by
  rw [← hsplit, ho.map_id_relationList]
  exact Dict.keys_ascending _

/-- So those listed before a relation have the lesser ids. -/
theorem mem_front_iff {entry : Relation} (he : other.relations.get? key = some entry) :
    entry ∈ front ↔ key < relation.id := by
  have hid := ho.relation_id key entry he
  subst hid
  have hlisted := ho.mem_relationList.mpr he
  have hascending := ascending_of_split ho hsplit
  rw [List.pairwise_map, List.pairwise_append, List.pairwise_cons] at hascending
  obtain ⟨-, ⟨hrest, -⟩, hless⟩ := hascending
  refine ⟨fun hf => hless entry hf relation List.mem_cons_self, fun hlt => ?_⟩
  rw [hsplit, List.mem_append, List.mem_cons] at hlisted
  rcases hlisted with hf | rfl | hr
  · exact hf
  · exact absurd hlt (String.lt_irrefl _)
  · exact absurd hlt (String.lt_asymm (hrest entry hr))

include hfront

/-- Adding those before a relation leaves what stands under its id and behind. -/
theorem get?_of_behind (hk : relation.id ≤ key) : left.relations.get? key = g.relations.get? key := by
  rw [← (toExcept_eq_ok.mp hfront).2, get?_addRelations_of_ne, addConcepts_relations]
  rintro entry he rfl
  have hlisted := ho.mem_relationList.mp (hsplit ▸ List.mem_append_left _ he)
  exact String.not_lt.mpr hk ((mem_front_iff ho hsplit hlisted).mp he)

/-- Those before a relation can be added, so they say what stands under their ids. -/
theorem triple_eq_of_before {lower upper : Relation} (hk : key < relation.id)
    (hl : g.relations.get? key = some lower) (hu : other.relations.get? key = some upper) :
    lower.triple = upper.triple := by
  have hmem := (mem_front_iff ho hsplit hu).mpr hk
  have hid := ho.relation_id key upper hu
  subst hid
  refine triple_eq_of_addRelations hfront hmem ?_
  rw [addConcepts_relations, hl]

/-- Before a relation the others are laid over what stands under their ids. -/
theorem get?_of_before (hk : key < relation.id) : left.relations.get? key =
    laid Relation.over (g.relations.get? key) (other.relations.get? key) := by
  cases hu : other.relations.get? key with
  | none =>
    rw [← (toExcept_eq_ok.mp hfront).2, get?_addRelations_of_ne, addConcepts_relations]
    · rfl
    · rintro entry he rfl
      rw [ho.mem_relationList.mp (hsplit ▸ List.mem_append_left _ he)] at hu
      cases hu
  | some upper =>
    have hmem := (mem_front_iff ho hsplit hu).mpr hk
    have hids : (front.map (·.id)).Nodup :=
      (List.pairwise_append.mp (List.map_append ▸ ascending_of_split ho hsplit)).1.imp String.ne_of_lt
    have hid := ho.relation_id key upper hu
    subst hid
    rw [get?_addRelations_annotated hids hfront hmem, annotated, relation?, addConcepts_relations]
    rfl

end Front

/-- Merging that is refused stops at the least id that stands for two triples. -/
theorem stopsAt_of_merge_fault (ho : other.WellFormed) (h : (g.merge other).fault = some fault) :
    ∃ id, fault = .duplicateRelation id ∧ g.StopsAt other (g.merge other).graph id := by
  obtain ⟨front, relation, rest, hsplit, hfront, hrefused⟩ := exists_of_addRelations_fault h
  rw [← merge] at hfront hrefused
  have hrelation : other.relations.get? relation.id = some relation :=
    ho.mem_relationList.mp (hsplit ▸ List.mem_append_right _ List.mem_cons_self)
  obtain ⟨rfl, stored, hstored, hne⟩ := addRelation_eq_error
    ((hasConcept_merge ho).mpr (.inr (ho.source_mem _ _ hrelation)))
    ((hasConcept_merge ho).mpr (.inr (ho.target_mem _ _ hrelation))) hrefused
  rw [get?_of_behind ho hsplit hfront (String.le_refl _)] at hstored
  refine ⟨relation.id, rfl, ?_, ?_, ?_, ?_, fun key => get?_of_behind ho hsplit hfront⟩
  · exact ⟨_, _, ⟨stored, hstored, rfl⟩, ⟨relation, hrelation, rfl⟩, hne⟩
  · rintro earlier ⟨_, _, ⟨lower, hl, rfl⟩, ⟨upper, hu, rfl⟩, hdiffer⟩
    exact String.not_lt.mp fun hlt => hdiffer (triple_eq_of_before ho hsplit hfront hlt hl hu)
  · intro key
    rw [get?_merge_concepts ho]
    exact Concept.entry_laid _ _
  · intro key hk
    rw [get?_of_before ho hsplit hfront hk]
    exact Relation.entry_laid fun lower upper => triple_eq_of_before ho hsplit hfront hk

/-- Merging well-formed graphs is refused only because an id stands for two triples. -/
theorem fault_of_merge (ho : other.WellFormed) (h : (g.merge other).toExcept = .error fault) :
    ∃ id, fault = .duplicateRelation id := by
  obtain ⟨id, hid, -⟩ := stopsAt_of_merge_fault ho (toExcept_eq_error.mp h)
  exact ⟨id, hid⟩

/-- A graph has what two graphs have, of which the second is laid over the first. -/
structure Unites (g other both : Graph) : Prop where
  /-- Every concept is one of either graph or unites both. -/
  concepts : ∀ id, Entry Concept.Unites (g.concepts.get? id) (other.concepts.get? id)
    (both.concepts.get? id)
  /-- So is every relation. -/
  relations : ∀ id, Entry Relation.Unites (g.relations.get? id) (other.relations.get? id)
    (both.relations.get? id)

/-- Merging is refused just when an id stands for two triples, and leaves a well-formed graph in any
case. A merged graph unites the two, and merging the same graph again leaves it as it is; two graphs are
merged into a third one in turn with the same result as together, if there is one. Where merging is
refused it names the least id that stands for two triples and stops there. -/
theorem merge_unites (hg : g.WellFormed) (ho : other.WellFormed) :
    ((g.merge other).fault = none ↔ ∀ id, ¬g.Conflicts other id) ∧
    (g.merge other).graph.WellFormed ∧
    (∀ merged, (g.merge other).toExcept = .ok merged →
      g.Unites other merged ∧ merged.merge other = ⟨merged, none⟩) ∧
    (∀ third final : Graph, third.WellFormed →
      ((∃ merged, (g.merge other).toExcept = .ok merged ∧
          (merged.merge third).toExcept = .ok final) ↔
        ∃ merged, (other.merge third).toExcept = .ok merged ∧
          (g.merge merged).toExcept = .ok final)) ∧
    ∀ fault, (g.merge other).fault = some fault →
      ∃ id, fault = .duplicateRelation id ∧ g.StopsAt other (g.merge other).graph id := by
  refine ⟨merge_fault_eq_none_iff ho, hg.merge other, fun merged hm => ⟨⟨fun id => ?_, fun id => ?_⟩,
    merge_merge_self hg ho hm⟩, fun third final ht => merge_merge_eq_ok_iff hg ho ht, fun fault =>
    stopsAt_of_merge_fault ho⟩
  · rw [← (toExcept_eq_ok.mp hm).2, get?_merge_concepts ho]
    exact Concept.entry_laid _ _
  · rw [get?_merge_relations ho hm]
    have hnone := (exists_merge_iff ho).mp ⟨merged, hm⟩
    exact Relation.entry_laid fun _ _ => triple_eq_of_not_conflicts (hnone id)

/-- Ann knows Bob, and knows him from school. -/
def annsFriends : Graph :=
  ((Graph.empty.addConcepts [.known "ann", .known "bob"]).addRelations
    [.ofTriple ⟨"ann", "knows", "bob"⟩, { id := "school", triple := ⟨"ann", "knows", "bob"⟩ }]).graph

/-- Ann has known Bob for seven years; Carol knows him from school, and Ann from work. -/
def carolsFriends : Graph :=
  ((Graph.empty.addConcepts
      [{ id := "ann", description := "Ann" }, .known "bob", .known "carol"]).addRelations
    [{ Relation.ofTriple ⟨"ann", "knows", "bob"⟩ with metadata := .ofList [("years", .nat 7)] },
      { id := "school", triple := ⟨"carol", "knows", "bob"⟩ },
      { id := "work", triple := ⟨"carol", "knows", "ann"⟩ }]).graph

/-- The school is named by both with different friends. Merging stops there, with Carol and with the
years that Ann has known Bob, but not with Carol's work; without the school all is merged. -/
theorem merge_unites_of_friends :
    annsFriends.WellFormed ∧ carolsFriends.WellFormed ∧
    (annsFriends.merge carolsFriends).fault = some (.duplicateRelation "school") ∧
    annsFriends.StopsAt carolsFriends (annsFriends.merge carolsFriends).graph "school" ∧
    (annsFriends.merge carolsFriends).graph.relations.get? "work" = none ∧
    ∃ merged, ((annsFriends.removeRelation "school").2.merge carolsFriends).toExcept = .ok merged ∧
      (annsFriends.removeRelation "school").2.Unites carolsFriends merged ∧
      merged.merge carolsFriends = ⟨merged, none⟩ := by
  have hann : annsFriends.WellFormed := (wellFormed_empty.addConcepts _).addRelations _
  have hcarol : carolsFriends.WellFormed := (wellFormed_empty.addConcepts _).addRelations _
  have hfault : (annsFriends.merge carolsFriends).fault = some (.duplicateRelation "school") := by
    decide
  obtain ⟨id, hid, hstops⟩ := (merge_unites hann hcarol).2.2.2.2 _ hfault
  cases hid
  have hwork := hstops.behind "work" (by decide)
  obtain ⟨-, -, hunites, -⟩ := merge_unites (hann.removeRelation "school") hcarol
  have hdone : ((annsFriends.removeRelation "school").2.merge carolsFriends).toExcept =
      .ok ((annsFriends.removeRelation "school").2.merge carolsFriends).graph :=
    toExcept_eq_ok.mpr ⟨by decide, rfl⟩
  obtain ⟨hboth, hagain⟩ := hunites _ hdone
  exact ⟨hann, hcarol, hfault, hstops, hwork.trans (by decide), _, hdone, hboth, hagain⟩

end Graph

end KnowledgeGraph
