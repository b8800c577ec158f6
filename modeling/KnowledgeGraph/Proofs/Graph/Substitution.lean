import KnowledgeGraph.Proofs.Graph.Extension
import KnowledgeGraph.Proofs.Graph.Renaming
import Mathlib.Data.List.Pairwise

/-!
# Substitutions that are refused

Relations are refused just when two of them have one id and say different things, or when one of them
and a relation of the graph do. A substitution compares the rewired relations with each other and with
those that stay before it changes anything, so the comparison foretells what adding them does. Main
statement: `substitute_all_or_nothing`.
-/

namespace KnowledgeGraph

/-- A relation stays what it is when a concept is replaced that it does not touch. -/
theorem Relation.rewire_of_not_touches {relation : Relation} {old new : String}
    (h : ¬relation.touches old .both = true) : relation.rewire old new = relation := by
  simp only [touches, Bool.or_eq_true, decide_eq_true_eq, not_or] at h
  have htriple : relation.triple.rename old new = relation.triple := by
    simp only [Triple.rename, if_neg h.1, if_neg h.2]
  have hid : (if relation.isNamed then relation.id else relation.triple.id) = relation.id := by
    split
    next => rfl
    next hn => exact (not_not.mp fun hne => hn (decide_eq_true hne)).symm
  simp only [rewire, htriple, hid]

namespace Graph

variable {g g' base next : Graph} {relation : Relation} {relations rest staged : List Relation}
  {concept : Concept} {placeholder id : String}

/-- No id stands for two triples among some relations and those of a graph. -/
structure Accepts (g : Graph) (relations : List Relation) : Prop where
  /-- Two of the relations with one id say the same. -/
  among : relations.Pairwise fun first second => first.id = second.id → first.triple = second.triple
  /-- One of them says what the graph says under its id. -/
  beside : ∀ relation ∈ relations, ∀ stored, g.relations.get? relation.id = some stored →
    stored.triple = relation.triple

/-- No relations fit any graph. -/
theorem Accepts.nil (g : Graph) : g.Accepts [] := ⟨.nil, nofun⟩

/-- Any two of the relations that fit say the same if they have one id. -/
theorem Accepts.triple_eq (h : g.Accepts relations) {first second : Relation} (hf : first ∈ relations)
    (hs : second ∈ relations) (same : first.id = second.id) : first.triple = second.triple :=
  h.among.forall_of_forall_of_flip (fun _ _ _ => rfl) (h.among.imp fun hone hid => (hone hid.symm).symm)
    hf hs same

/-- A relation is one of a list or stands in a graph under its id. -/
def Among (g : Graph) (relations : List Relation) (relation : Relation) : Prop :=
  relation ∈ relations ∨ g.relations.get? relation.id = some relation

/-- Relations fit a graph when any two among them and those of the graph say the same if they have one
id. -/
theorem WellFormed.accepts_iff (h : g.WellFormed) : g.Accepts relations ↔
    ∀ first second, g.Among relations first → g.Among relations second → first.id = second.id →
      first.triple = second.triple := by
  constructor
  · rintro hfit first second (hf | hf) (hs | hs) same
    · exact hfit.triple_eq hf hs same
    · exact (hfit.beside first hf second (same ▸ hs)).symm
    · exact hfit.beside second hs first (same ▸ hf)
    · rw [same, hs, Option.some.injEq] at hf
      exact congrArg Relation.triple hf.symm
  · intro hall
    refine ⟨List.pairwise_of_forall_mem_list fun first hf second hs =>
      hall first second (.inl hf) (.inl hs), fun relation hr stored hg => ?_⟩
    have hid := h.relation_id relation.id stored hg
    exact hall stored relation (.inr (hid ▸ hg)) (.inl hr) hid

/-- Relations fit in any order. -/
theorem Accepts.perm (h : g.Accepts relations) {other : List Relation} (hp : relations.Perm other) :
    g.Accepts other where
  among := h.among.perm hp fun hone hid => (hone hid.symm).symm
  beside relation hr := h.beside relation (hp.mem_iff.mpr hr)

/-- Some of the relations that fit do so too. -/
theorem Accepts.sublist (h : g.Accepts relations) {some : List Relation} (hs : some.Sublist relations) :
    g.Accepts some where
  among := h.among.sublist hs
  beside relation hr := h.beside relation (hs.subset hr)

/-- One more relation fits when it says what others say under its id, be they of the graph or not. -/
theorem accepts_cons_iff : g.Accepts (relation :: rest) ↔ g.Accepts rest ∧
    (∀ other ∈ rest, relation.id = other.id → relation.triple = other.triple) ∧
    ∀ stored, g.relations.get? relation.id = some stored → stored.triple = relation.triple := by
  constructor
  · rintro ⟨hamong, hbeside⟩
    obtain ⟨hfirst, hrest⟩ := List.pairwise_cons.mp hamong
    obtain ⟨hhead, hothers⟩ := List.forall_mem_cons.mp hbeside
    exact ⟨⟨hrest, hothers⟩, hfirst, hhead⟩
  · rintro ⟨⟨hrest, hothers⟩, hfirst, hhead⟩
    exact ⟨List.pairwise_cons.mpr ⟨hfirst, hrest⟩, List.forall_mem_cons.mpr ⟨hhead, hothers⟩⟩

/-- Once one of several relations was added the others fit just when all of them did. -/
theorem accepts_cons_iff_of_addRelation (ha : g.addRelation relation = .ok next) :
    g.Accepts (relation :: rest) ↔ next.Accepts rest := by
  obtain ⟨entered, he, htriple⟩ := get?_addRelation_self ha
  rw [accepts_cons_iff]
  constructor
  · rintro ⟨h, hfirst, -⟩
    refine ⟨h.among, fun other ho stored hg => ?_⟩
    by_cases same : relation.id = other.id
    · rw [← same, he, Option.some.injEq] at hg
      rw [← hg, htriple]
      exact hfirst other ho same
    · rw [get?_addRelation_of_ne ha same] at hg
      exact h.beside other ho stored hg
  · intro h
    refine ⟨⟨h.among, fun other ho stored hg => ?_⟩, fun other ho same => ?_, fun stored hg => ?_⟩
    · obtain ⟨kept, hk, hsame⟩ := get?_addRelation_of_some ha hg
      exact hsame.symm.trans (h.beside other ho kept hk)
    · exact htriple.symm.trans (h.beside other ho entered (same ▸ he))
    · obtain ⟨kept, hk, hsame⟩ := get?_addRelation_of_some ha hg
      rw [he, Option.some.injEq] at hk
      rw [← hsame, ← hk, htriple]

/-- Relations between concepts of a graph are all added just when they fit. -/
theorem addRelations_fault_eq_none_iff
    (he : ∀ relation ∈ relations, g.hasConcept relation.triple.source = true ∧
      g.hasConcept relation.triple.target = true) :
    (g.addRelations relations).fault = none ↔ g.Accepts relations := by
  induction relations generalizing g with
  | nil => exact ⟨fun _ => .nil g, fun _ => rfl⟩
  | cons head rest ih =>
    obtain ⟨⟨hs, ht⟩, hends⟩ := List.forall_mem_cons.mp he
    rw [addRelations]
    cases ha : g.addRelation head with
    | ok next =>
      have hsame : ∀ id, next.hasConcept id = g.hasConcept id := fun id => by
        rw [hasConcept, hasConcept, addRelation_concepts ha]
      rw [accepts_cons_iff_of_addRelation ha]
      exact ih fun relation hr => by rw [hsame, hsame]; exact hends relation hr
    | error fault =>
      constructor
      · intro h
        cases h
      · intro h
        rw [addRelation_of_ends hs ht] at ha
        cases hg : g.relations.get? head.id with
        | none =>
          rw [hg] at ha
          cases ha
        | some existing =>
          simp only [hg, if_pos (h.beside head List.mem_cons_self existing hg)] at ha
          cases ha

/-- What stands under an id once relations are added: what stood there, with the metadata of those that
have the id. -/
theorem get?_of_addRelations (h : (g.addRelations relations).toExcept = .ok g') :
    g'.relations.get? id = (relations.filter fun relation => relation.id = id).foldl
      (fun kept relation => some (Relation.over kept relation)) (g.relations.get? id) := by
  induction relations generalizing g with
  | nil =>
    cases h
    rfl
  | cons head rest ih =>
    obtain ⟨next, ha, hrest⟩ := addRelations_cons_eq_ok.mp h
    rw [ih hrest]
    by_cases same : head.id = id
    · subst same
      rw [List.filter_cons_of_pos (by simp), List.foldl_cons, get?_addRelation_annotated ha]
      rfl
    · rw [List.filter_cons_of_neg (by simpa using same), get?_addRelation_of_ne ha same]

/-- A relation that is there takes on the metadata of those laid over it. -/
theorem foldl_over_some (kept : Relation) (relations : List Relation) :
    relations.foldl (fun kept relation => some (Relation.over kept relation)) (some kept) =
      some (relations.foldl (fun kept relation => kept.annotate relation.metadata) kept) := by
  induction relations generalizing kept with
  | nil => rfl
  | cons head rest ih => exact ih (kept.annotate head.metadata)

/-- A further relation fits when it says what is said under its id, by a relation before it or else by the
graph. -/
theorem accepts_cons_iff_of_accepts (h : base.Accepts staged) :
    base.Accepts (relation :: staged) ↔
      ((staged.find? fun other => other.id = relation.id).or
        (base.relations.get? relation.id)).any (fun other => decide (other.triple ≠ relation.triple)) =
          false := by
  rw [accepts_cons_iff, and_iff_right h]
  cases hfind : staged.find? fun other => other.id = relation.id with
  | none =>
    have hnone : ∀ other ∈ staged, relation.id = other.id → relation.triple = other.triple :=
      fun other ho same => absurd same.symm (by simpa using List.find?_eq_none.mp hfind other ho)
    rw [and_iff_right hnone, Option.none_or]
    cases base.relations.get? relation.id <;> simp
  | some earlier =>
    have hmem := List.mem_of_find?_eq_some hfind
    have hid : earlier.id = relation.id := by simpa using List.find?_some hfind
    simp only [Option.some_or, Option.any_some, decide_eq_false_iff_not, ne_eq, not_not]
    constructor
    · rintro ⟨hothers, -⟩
      exact (hothers earlier hmem hid.symm).symm
    · intro hsame
      refine ⟨fun other ho same => ?_, fun stored hg => ?_⟩
      · exact hsame.symm.trans (h.triple_eq hmem ho (hid.trans same))
      · exact (h.beside earlier hmem stored (hid ▸ hg)).trans hsame

/-- Nothing clashes just when all relations fit what stays of a graph. -/
theorem clash?_eq_none_iff {leaving : List String}
    (hb : ∀ id, base.relations.get? id =
      (g.relation? id).filter fun other => !leaving.contains other.id)
    (hs : base.Accepts staged) :
    g.clash? leaving staged rest = none ↔ base.Accepts (rest ++ staged) := by
  induction rest generalizing staged with
  | nil => exact ⟨fun _ => hs, fun _ => rfl⟩
  | cons head rest ih =>
    have hcons := @accepts_cons_iff_of_accepts base head staged hs
    rw [hb] at hcons
    have horder : (head :: (rest ++ staged)).Perm (rest ++ head :: staged) := List.perm_middle.symm
    rw [clash?]
    split
    next htaken =>
      refine ⟨nofun, fun hall => ?_⟩
      have hhead : base.Accepts (head :: staged) :=
        (hall.perm horder).sublist (List.sublist_append_right _ _)
      rw [hcons.mp hhead] at htaken
      cases htaken
    next htaken =>
      rw [ih (hcons.mpr (Bool.eq_false_iff.mpr htaken))]
      exact ⟨fun hall => hall.perm horder.symm, fun hall => hall.perm horder⟩

/-- A relation clashes with one that has its id and says something else, among those compared or among
those that stay. -/
theorem WellFormed.of_clash?_eq_some (h : g.WellFormed) {leaving : List String}
    (hb : ∀ id, base.relations.get? id =
      (g.relation? id).filter fun other => !leaving.contains other.id)
    (hc : g.clash? leaving staged rest = some relation) :
    relation ∈ rest ∧ ∃ other, base.Among (rest ++ staged) other ∧ other.id = relation.id ∧
      other.triple ≠ relation.triple := by
  induction rest generalizing staged with
  | nil => cases hc
  | cons head rest ih =>
    rw [clash?] at hc
    split at hc
    next htaken =>
      cases hc
      obtain ⟨other, ho, hne⟩ := (Option.any_eq_true _ _).mp htaken
      rcases Option.or_eq_some_iff.mp ho with hf | ⟨-, hg⟩
      · have hid : other.id = relation.id := by simpa using List.find?_some hf
        have hmem := List.mem_append_right (relation :: rest) (List.mem_of_find?_eq_some hf)
        exact ⟨List.mem_cons_self, other, .inl hmem, hid, of_decide_eq_true hne⟩
      · have hid := h.relation_id relation.id other (Option.filter_eq_some_iff.mp hg).1
        have hstays : base.relations.get? other.id = some other := by rw [hid, hb, hg]
        exact ⟨List.mem_cons_self, other, .inr hstays, hid, of_decide_eq_true hne⟩
    next =>
      obtain ⟨hmem, other, hwhere, hid, hne⟩ := ih hc
      exact ⟨List.mem_cons_of_mem _ hmem, other, hwhere.imp_left List.perm_middle.mem_iff.mp, hid, hne⟩

/-- The relations that touch a concept, with another one in its place. -/
def rewired (g : Graph) (old new : String) : List Relation :=
  (g.relationsAt old .both).map (·.rewire old new)

/-- Two relations come to have an id in common and to say different things when one concept takes the
place of another. -/
def Collides (g : Graph) (old new id : String) : Prop :=
  ∃ first ∈ g.relationList, ∃ second ∈ g.relationList, (first.rewire old new).id = id ∧
    (second.rewire old new).id = id ∧ (first.rewire old new).triple ≠ (second.rewire old new).triple

/-- Where the placeholder is present and another concept takes its place, the comparison decides. -/
theorem substitute_of_present (hc : g.hasConcept placeholder = true) (hn : placeholder ≠ concept.id) :
    g.substitute placeholder concept =
      match g.clash? (g.touching placeholder) [] (g.rewired placeholder concept.id) with
      | some relation => ⟨g, some (.duplicateRelation relation.id)⟩
      | none => (g.vacated placeholder concept).addRelations (g.rewired placeholder concept.id) := by
  unfold substitute
  simp only [hc, Bool.not_true, Bool.false_eq_true, if_false, if_neg hn]
  rfl

/-- What stays under an id is the relation there, unless it touches the placeholder. -/
theorem WellFormed.get?_vacated_eq (h : g.WellFormed) (placeholder : String) (concept : Concept)
    (id : String) : (g.vacated placeholder concept).relations.get? id =
      (g.relation? id).filter fun other => !(g.touching placeholder).contains other.id := by
  rw [Graph.vacated, removeRelations_eq, Dict.get?_foldl_erase, addConcept_relations, relation?]
  cases hg : g.relations.get? id with
  | none => rw [Option.filter_none, ite_self]
  | some stored =>
    rw [Option.filter_some, h.relation_id id stored hg]
    by_cases hl : id ∈ g.touching placeholder <;> simp [hl]

/-- The rewired relations and those that stay are the relations of the graph with the replacement in the
placeholder's place. -/
theorem WellFormed.among_rewired_iff (h : g.WellFormed) {other : Relation} :
    (g.vacated placeholder concept).Among (g.rewired placeholder concept.id) other ↔
      ∃ relation ∈ g.relationList, relation.rewire placeholder concept.id = other := by
  constructor
  · rintro (hm | hg)
    · obtain ⟨relation, hr, rfl⟩ := List.mem_map.mp hm
      exact ⟨relation, List.mem_of_mem_filter hr, rfl⟩
    · obtain ⟨hstored, hsource, htarget⟩ := h.get?_vacated.mp hg
      refine ⟨other, h.mem_relationList.mpr hstored, Relation.rewire_of_not_touches ?_⟩
      simp [Relation.touches, hsource, htarget]
  · rintro ⟨relation, hr, rfl⟩
    by_cases ht : relation.touches placeholder .both = true
    · exact .inl (List.mem_map_of_mem (List.mem_filter.mpr ⟨hr, ht⟩))
    · rw [Relation.rewire_of_not_touches ht]
      refine .inr (h.get?_vacated.mpr ⟨h.mem_relationList.mp hr, ?_⟩)
      simpa [Relation.touches, not_or] using ht

/-- The rewired relations fit the relations that stay just when no two relations collide. -/
theorem WellFormed.accepts_rewired_iff (h : g.WellFormed) :
    (g.vacated placeholder concept).Accepts (g.rewired placeholder concept.id) ↔
      ∀ id, ¬g.Collides placeholder concept.id id := by
  simp only [(h.vacated placeholder concept).accepts_iff, h.among_rewired_iff]
  constructor
  · rintro hall id ⟨first, hf, second, hs, hfid, hsid, hne⟩
    exact hne (hall _ _ ⟨first, hf, rfl⟩ ⟨second, hs, rfl⟩ (hfid.trans hsid.symm))
  · rintro hnone _ _ ⟨first, hf, rfl⟩ ⟨second, hs, rfl⟩ same
    by_contra hne
    exact hnone _ ⟨first, hf, second, hs, rfl, same.symm, hne⟩

/-- The ends of rewired relations are concepts of the vacated graph. -/
theorem WellFormed.ends_rewired (h : g.WellFormed) :
    ∀ relation ∈ g.rewired placeholder concept.id,
      (g.vacated placeholder concept).hasConcept relation.triple.source = true ∧
        (g.vacated placeholder concept).hasConcept relation.triple.target = true := by
  have hend : ∀ id, g.hasConcept id = true → (g.vacated placeholder concept).hasConcept
      (if id = placeholder then concept.id else id) = true := by
    intro id hc
    rw [vacated_eq, hasConcept_addConcept]
    split
    next => exact .inl rfl
    next hother => exact .inr (Dict.contains_erase.mpr ⟨hother, hc⟩)
  intro moved hm
  obtain ⟨relation, hr, rfl⟩ := List.mem_map.mp hm
  have hg := h.mem_relationList.mp (List.mem_of_mem_filter hr)
  exact ⟨hend _ (h.source_mem _ relation hg), hend _ (h.target_mem _ relation hg)⟩

/-- If the comparison finds nothing the relations are all added. -/
theorem WellFormed.addRelations_of_clash?_eq_none (h : g.WellFormed)
    (hc : g.clash? (g.touching placeholder) [] (g.rewired placeholder concept.id) = none) :
    ((g.vacated placeholder concept).addRelations (g.rewired placeholder concept.id)).fault = none := by
  have hfit := (clash?_eq_none_iff (h.get?_vacated_eq placeholder concept) (.nil _)).mp hc
  rw [List.append_nil] at hfit
  exact (addRelations_fault_eq_none_iff (h.ends_rewired)).mpr hfit

/-- A substitution of another concept for one that is present is refused just when relations collide, and
then the fault names an id at which they do. -/
theorem WellFormed.substitute_refused (h : g.WellFormed) (hc : g.hasConcept placeholder = true)
    (hn : placeholder ≠ concept.id) :
    ((g.substitute placeholder concept).fault = none ↔ ∀ id, ¬g.Collides placeholder concept.id id) ∧
      ∀ fault, (g.substitute placeholder concept).fault = some fault →
        ∃ id, g.Collides placeholder concept.id id ∧ fault = .duplicateRelation id := by
  have hstays := h.get?_vacated_eq placeholder concept
  have hfit := @clash?_eq_none_iff g _ (g.rewired placeholder concept.id) _ _ hstays (.nil _)
  rw [List.append_nil, h.accepts_rewired_iff] at hfit
  rw [substitute_of_present hc hn, ← hfit]
  cases hclash : g.clash? (g.touching placeholder) [] (g.rewired placeholder concept.id) with
  | none =>
    have hadded := h.addRelations_of_clash?_eq_none hclash
    exact ⟨⟨fun _ => rfl, fun _ => hadded⟩, fun fault hf => by rw [hadded] at hf; cases hf⟩
  | some moved =>
    refine ⟨⟨nofun, nofun⟩, fun fault hf => ?_⟩
    cases hf
    obtain ⟨hm, other, hwhere, hid, hne⟩ := h.of_clash?_eq_some hstays hclash
    rw [List.append_nil] at hwhere
    obtain ⟨first, hf, rfl⟩ := h.among_rewired_iff.mp (.inl hm)
    obtain ⟨second, hs, rfl⟩ := h.among_rewired_iff.mp hwhere
    exact ⟨_, ⟨first, hf, second, hs, rfl, hid, hne.symm⟩, rfl⟩

/-- What a substitution of another concept for one that is present leaves. -/
structure Moved (g : Graph) (placeholder : String) (concept : Concept) (g' : Graph) : Prop where
  /-- The placeholder is gone. -/
  gone : g'.hasConcept placeholder = false
  /-- The concept is there, laid over what had its id. -/
  placed : g'.concepts.get? concept.id = some (g.laidOver concept)
  /-- Every other concept is as it was. -/
  kept : ∀ id, id ≠ placeholder → id ≠ concept.id → g'.concepts.get? id = g.concepts.get? id
  /-- A relation that did not touch the placeholder is there. Its metadata is extended by that of the
  rewired relations with its id, which say the same. -/
  stays : ∀ id relation, g.relations.get? id = some relation →
    relation.touches placeholder .both = false →
    g'.relations.get? id = some (((g.rewired placeholder concept.id).filter fun moved => moved.id = id).foldl
      (fun kept moved => kept.annotate moved.metadata) relation) ∧
    ∀ moved ∈ g.rewired placeholder concept.id, moved.id = id → moved.triple = relation.triple
  /-- The triples are those of the graph with the concept in the placeholder's place. -/
  says_iff : ∀ triple, g'.Says triple ↔
    ∃ before, g.Says before ∧ before.rename placeholder concept.id = triple

/-- What is left is told by the graph, the placeholder and the concept. -/
theorem WellFormed.moved (h : g.WellFormed) (hn : placeholder ≠ concept.id)
    (hs : (g.substitute placeholder concept).toExcept = .ok g') : g.Moved placeholder concept g' where
  gone := by
    have hnone : g'.concepts.get? placeholder = none := by
      rw [get?_substitute hn hs, if_neg hn.symm, if_pos rfl]
    exact Bool.eq_false_iff.mpr (Dict.get?_eq_none.mp hnone)
  placed := by rw [get?_substitute hn hs, if_pos rfl]
  kept id hp hc := by rw [get?_substitute hn hs, if_neg hc.symm, if_neg hp]
  stays id relation hg ht := by
    have hadded := ((substitute_eq_ok hs).resolve_left fun same => hn same.1).2
    have hfit := (addRelations_fault_eq_none_iff (h.ends_rewired)).mp (toExcept_eq_ok.mp hadded).1
    have hstays : (g.vacated placeholder concept).relations.get? id = some relation := by
      refine h.get?_vacated.mpr ⟨hg, ?_⟩
      simpa [Relation.touches] using ht
    refine ⟨?_, fun moved hm hid => (hfit.beside moved hm relation (hid ▸ hstays)).symm⟩
    rw [get?_of_addRelations hadded, hstays, foldl_over_some]
    rfl
  says_iff _ := h.says_substitute hn hs

/-- A placeholder that is missing refuses the substitution. -/
theorem substitute_of_absent (hc : g.hasConcept placeholder = false) :
    g.substitute placeholder concept = ⟨g, some (.missingConcept placeholder)⟩ := by
  unfold substitute
  simp only [hc, Bool.not_false, if_true]

/-- A concept of the placeholder's own id is laid over it. -/
theorem substitute_self (hc : g.hasConcept concept.id = true) :
    g.substitute concept.id concept = ⟨g.addConcept concept, none⟩ := by
  unfold substitute
  simp only [hc, Bool.not_true, Bool.false_eq_true, if_false, if_true]

/-- A substitution comes to its end or leaves the graph as it was. -/
theorem WellFormed.substitute_none_or_unchanged (h : g.WellFormed) (placeholder : String)
    (concept : Concept) : (g.substitute placeholder concept).fault = none ∨
      (g.substitute placeholder concept).graph = g := by
  cases hc : g.hasConcept placeholder with
  | false => exact .inr (congrArg Edited.graph (substitute_of_absent hc))
  | true =>
    by_cases hn : placeholder = concept.id
    · subst hn
      exact .inl (congrArg Edited.fault (substitute_self hc))
    · rw [substitute_of_present hc hn]
      cases hclash : g.clash? (g.touching placeholder) [] (g.rewired placeholder concept.id) with
      | none => exact .inl (h.addRelations_of_clash?_eq_none hclash)
      | some relation => exact .inr rfl

/-- A substitution is refused and leaves the graph as it was, or it comes to its end. Where the
placeholder is present and another concept takes its place it is refused just when two relations come to
have one id and say different things, which is found before anything is changed; otherwise the
placeholder is gone, the concept is laid over what has its id, the relations that do not touch the
placeholder stay, and the triples are the old ones with the concept in the placeholder's place. -/
theorem substitute_all_or_nothing (h : g.WellFormed) (placeholder : String) (concept : Concept) :
    ((g.substitute placeholder concept).fault = none ∨
      (g.substitute placeholder concept).graph = g) ∧
    (g.hasConcept placeholder = true → placeholder ≠ concept.id →
      ((g.substitute placeholder concept).fault ≠ none ↔
        ∃ id, g.Collides placeholder concept.id id) ∧
      (∀ fault, (g.substitute placeholder concept).fault = some fault →
        ∃ id, g.Collides placeholder concept.id id ∧ fault = .duplicateRelation id) ∧
      (g.clash? (g.touching placeholder) [] (g.rewired placeholder concept.id) = none →
        ((g.vacated placeholder concept).addRelations
          (g.rewired placeholder concept.id)).fault = none) ∧
      ∀ g', (g.substitute placeholder concept).toExcept = .ok g' → g.Moved placeholder concept g') := by
  refine ⟨h.substitute_none_or_unchanged placeholder concept, fun hc hn => ?_⟩
  obtain ⟨hnone, hfault⟩ := h.substitute_refused hc hn
  refine ⟨?_, hfault, h.addRelations_of_clash?_eq_none, fun g' hs => h.moved hn hs⟩
  rw [ne_eq, hnone, not_forall]
  exact exists_congr fun _ => not_not

/-- A way from some place, and one of a type that ends like it. -/
def hyphenatedWays : Graph :=
  .ofStatements ["?place", "north", "ferry"]
    [⟨"north", "pole-reaches", "ferry"⟩, ⟨"?place", "reaches", "ferry"⟩]

/-- The pole would have the id of the other way and takes no place; the island takes the place and leaves
the other way as it is. -/
theorem substitute_all_or_nothing_of_hyphens :
    hyphenatedWays.WellFormed ∧ hyphenatedWays.hasConcept "?place" = true ∧
    hyphenatedWays.Collides "?place" "north-pole" "north-pole-reaches->ferry" ∧
    (hyphenatedWays.substitute "?place" (.known "north-pole")).fault =
      some (.duplicateRelation "north-pole-reaches->ferry") ∧
    (hyphenatedWays.substitute "?place" (.known "north-pole")).graph = hyphenatedWays ∧
    ∃ moved, (hyphenatedWays.substitute "?place" (.known "island")).toExcept = .ok moved ∧
      hyphenatedWays.Moved "?place" (.known "island") moved ∧
      moved.Says ⟨"island", "reaches", "ferry"⟩ := by
  have h : hyphenatedWays.WellFormed := wellFormed_ofStatements _ _
  have hpresent : hyphenatedWays.hasConcept "?place" = true := by decide
  obtain ⟨hpole, hcollides⟩ := substitute_all_or_nothing h "?place" (.known "north-pole")
  obtain ⟨-, hmoved⟩ := substitute_all_or_nothing h "?place" (.known "island")
  have hfault : (hyphenatedWays.substitute "?place" (.known "north-pole")).fault =
      some (.duplicateRelation "north-pole-reaches->ferry") := by decide
  obtain ⟨id, hid, hnamed⟩ := (hcollides hpresent (by decide)).2.1 _ hfault
  cases hnamed
  have hdone : (hyphenatedWays.substitute "?place" (.known "island")).toExcept =
      .ok (hyphenatedWays.substitute "?place" (.known "island")).graph := by decide
  have hleft := (hmoved hpresent (by decide)).2.2.2 _ hdone
  refine ⟨h, hpresent, hid, hfault, hpole.resolve_left ?_, _, hdone, hleft, ?_⟩
  · rw [hfault]
    nofun
  · exact (hleft.says_iff _).mpr ⟨⟨"?place", "reaches", "ferry"⟩, by decide, by decide⟩

end Graph

end KnowledgeGraph
