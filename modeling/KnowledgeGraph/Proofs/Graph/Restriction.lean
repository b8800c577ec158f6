import KnowledgeGraph.Proofs.Graph.Deduplication
import KnowledgeGraph.Proofs.Graph.Selection

/-!
# Removing concepts is keeping the others

A part of a graph is told by what it selects of it: the concepts of a set and the relations between them.
Removing a concept selects in the same way, so the two ways to come to a smaller graph, in place and by
building it anew, agree in concepts, relations and index. Main statement: what is left of a graph without
a concept is the part of the others, a part of a part is that of the ids in both sets, and the order in
which concepts are removed makes no difference.
-/

namespace KnowledgeGraph.Graph

variable {g g' : Graph} {id : String}

/-- A part selects the concepts of a set and the relations between them. -/
theorem WellFormed.selects_part (h : g.WellFormed) (ids : List String) :
    g.Selects (· ∈ ids)
      (fun relation => relation.triple.source ∈ ids ∧ relation.triple.target ∈ ids) (g.part ids) where
  wellFormed := h.part ids
  concepts_iff id concept := by
    rw [h.part_concepts, Dict.get?_filter, Option.filter_eq_some_iff, List.contains_iff_mem]
  relations_iff _ _ := h.get?_part

/-- What is selected of a selection is selected of the whole. -/
theorem Selects.trans {middle : Graph} {chosen chosen' : String → Prop} {wanted wanted' : Relation → Prop}
    (h : g.Selects chosen wanted middle) (h' : middle.Selects chosen' wanted' g') :
    g.Selects (fun id => chosen id ∧ chosen' id)
      (fun relation => wanted relation ∧ wanted' relation) g' where
  wellFormed := h'.wellFormed
  concepts_iff id concept := by
    rw [h'.concepts_iff, h.concepts_iff, and_assoc]
  relations_iff id relation := by
    rw [h'.relations_iff, h.relations_iff, and_assoc]

/-- Removing a concept leaves the other ones and the relations that do not touch it. -/
theorem WellFormed.selects_removeConcept (h : g.WellFormed) {removed : Concept}
    (hr : g.removeConcept id = .ok (removed, g')) :
    g.Selects (· ≠ id)
      (fun relation => relation.triple.source ≠ id ∧ relation.triple.target ≠ id) g' where
  wellFormed := h.removeConcept hr
  concepts_iff key concept := by
    rw [removeConcept_eq_ok hr, Dict.get?_erase]
    by_cases same : key = id <;> simp [same]
  relations_iff key relation := by
    rw [removeConcept_eq_ok hr, Dict.get?_filter, Option.filter_eq_some_iff]
    simp [Relation.touches]

/-- The part of all concepts but some. -/
def without (g : Graph) (ids : List String) : Graph := g.part (g.concepts.keys.filter (· ∉ ids))

/-- The part without some concepts is well-formed. -/
theorem WellFormed.without (h : g.WellFormed) (ids : List String) : (g.without ids).WellFormed :=
  h.part _

/-- The part without some concepts selects the others and the relations between these. -/
theorem WellFormed.selects_without (h : g.WellFormed) (ids : List String) :
    g.Selects (· ∉ ids)
      (fun relation => relation.triple.source ∉ ids ∧ relation.triple.target ∉ ids)
      (g.without ids) := by
  have hkeeps : ∀ id, g.hasConcept id = true →
      (id ∈ g.concepts.keys.filter (· ∉ ids) ↔ id ∉ ids) := by
    intro id hid
    rw [List.mem_filter, Dict.mem_keys, decide_eq_true_eq]
    exact and_iff_right hid
  refine (h.selects_part _).congr hkeeps fun id relation hr => ?_
  rw [hkeeps _ (h.source_mem id relation hr), hkeeps _ (h.target_mem id relation hr)]

/-- Only which concepts are left out counts. -/
theorem without_congr {ids ids' : List String}
    (h : ∀ id, g.hasConcept id = true → (id ∈ ids ↔ id ∈ ids')) : g.without ids = g.without ids' := by
  refine congrArg g.part (List.filter_congr fun id hid => ?_)
  exact decide_eq_decide.mpr (not_congr (h id (Dict.mem_keys.mp hid)))

/-- The part without no concepts is the whole graph. -/
theorem WellFormed.without_nil (h : g.WellFormed) : g.without [] = g := by
  have hwhole : g.Selects (fun _ => True) (fun _ => True) g :=
    ⟨h, fun _ _ => (and_iff_left trivial).symm, fun _ _ => (and_iff_left trivial).symm⟩
  refine (h.selects_without []).unique (hwhole.congr (fun id _ => ?_) fun id relation _ => ?_)
  · simp
  · simp

/-- Leaving out some concepts and then more is leaving out all of them. -/
theorem WellFormed.without_without (h : g.WellFormed) (ids more : List String) :
    (g.without ids).without more = g.without (ids ++ more) := by
  have hfirst := h.selects_without ids
  refine (hfirst.trans (hfirst.wellFormed.selects_without more)).unique
    ((h.selects_without (ids ++ more)).congr (fun id _ => ?_) fun id relation _ => ?_)
  · rw [List.mem_append, not_or]
  · simp only [List.mem_append, not_or]
    exact and_and_and_comm

/-- A part of a part is spanned by the concepts of both sets. -/
theorem WellFormed.part_part (h : g.WellFormed) (ids others : List String) :
    (g.part ids).part others = g.part (ids ∩ others) := by
  have hfirst := h.selects_part ids
  refine (hfirst.trans (hfirst.wellFormed.selects_part others)).unique
    ((h.selects_part (ids ∩ others)).congr (fun id _ => ?_) fun id relation _ => ?_)
  · rw [List.mem_inter_iff]
  · simp only [List.mem_inter_iff]
    exact and_and_and_comm

/-- A concept that is there is removed, and the part without it is left. -/
theorem WellFormed.removeConcept_eq (h : g.WellFormed) {concept : Concept}
    (hc : g.concepts.get? id = some concept) :
    g.removeConcept id = .ok (concept, g.without [id]) := by
  have hremoved : ∃ left, g.removeConcept id = .ok (concept, left) := by
    unfold Graph.removeConcept
    rw [requireConcept_eq_ok.mpr hc]
    exact ⟨_, rfl⟩
  obtain ⟨left, hleft⟩ := hremoved
  have hothers : left = g.without [id] := by
    refine (h.selects_removeConcept hleft).unique
      ((h.selects_without [id]).congr (fun key _ => ?_) fun key relation _ => ?_)
    · rw [List.mem_singleton]
    · rw [List.mem_singleton, List.mem_singleton]
  rw [hleft, hothers]

/-- A concept that is not there is named by the fault, and the graph stays. -/
theorem perform_removeConcept_of_absent (h : ¬g.hasConcept id = true) :
    g.perform (.removeConcept id) = ⟨g, some (.missingConcept id)⟩ := by
  rw [Graph.perform, Graph.removeConcept, requireConcept_of_absent h]
  rfl

/-- Whether it is there or not, the part without a concept is left when it is removed. -/
theorem WellFormed.perform_removeConcept (h : g.WellFormed) (id : String) :
    (g.perform (.removeConcept id)).graph = g.without [id] := by
  by_cases hid : g.hasConcept id = true
  · obtain ⟨concept, hc⟩ := hasConcept_iff.mp hid
    rw [Graph.perform, h.removeConcept_eq hc]
    rfl
  · rw [perform_removeConcept_of_absent hid]
    have hsame : g.without [] = g.without [id] := by
      refine without_congr fun key hkey => ?_
      have hne : key ≠ id := fun same => hid (same ▸ hkey)
      simp [hne]
    exact h.without_nil.symm.trans hsame

/-- Removing concepts one after the other leaves the part without them. -/
theorem WellFormed.performAll_removeConcept (h : g.WellFormed) (ids : List String) :
    g.performAll (ids.map .removeConcept) = g.without ids := by
  induction ids generalizing g with
  | nil => exact h.without_nil.symm
  | cons id rest ih =>
    rw [List.map_cons, Graph.performAll, List.foldl_cons, ← Graph.performAll, h.perform_removeConcept,
      ih (h.without [id]), h.without_without]
    rfl

/-- Removing a concept from a graph that is reached leaves the part of all others, with its index, and is
refused with the graph as it is when there is no such concept. A part of a part is spanned by what is in
both sets. So removing concepts, in whatever order, leaves the part of those that are not removed. -/
theorem removal_restricts (hg : Reachable g) :
    (∀ id concept, g.concepts.get? id = some concept →
      g.removeConcept id = .ok (concept, g.part (g.concepts.keys.filter (· ≠ id)))) ∧
    (∀ id, ¬g.hasConcept id = true →
      g.perform (.removeConcept id) = ⟨g, some (.missingConcept id)⟩) ∧
    (∀ ids others, (g.part ids).part others = g.part (ids ∩ others)) ∧
    (∀ ids : List String, g.performAll (ids.map .removeConcept) =
      g.part (g.concepts.keys.filter (· ∉ ids))) ∧
    ∀ first second, g.performAll [.removeConcept first, .removeConcept second] =
      g.performAll [.removeConcept second, .removeConcept first] := by
  have hw := hg.wellFormed
  refine ⟨fun id concept hc => ?_, fun id => perform_removeConcept_of_absent, hw.part_part,
    hw.performAll_removeConcept, fun first second => ?_⟩
  · have hothers : g.without [id] = g.part (g.concepts.keys.filter (· ≠ id)) := by
      simp only [without, List.mem_singleton]
    rw [hw.removeConcept_eq hc, hothers]
  · have hsame : g.without [first, second] = g.without [second, first] :=
      without_congr fun id _ => (List.Perm.swap second first []).mem_iff
    exact (hw.performAll_removeConcept [first, second]).trans
      (hsame.trans (hw.performAll_removeConcept [second, first]).symm)

/-- A quay and an isle with two ways between them, of which one has a name, a round walk on the isle and a
hill that is seen from it. -/
def landings : Graph :=
  ((empty.addConcepts [.known "quay", .known "isle", .known "hill"]).addRelations
    [{ id := "ferry", triple := ⟨"quay", "leads to", "isle"⟩ },
      .ofTriple ⟨"quay", "leads to", "isle"⟩,
      { id := "round walk", triple := ⟨"isle", "leads to", "isle"⟩ },
      .ofTriple ⟨"isle", "sees", "hill"⟩]).graph

/-- Without the quay the isle and the hill are left with the round walk and the view, and without the isle
no relation is; there is no moon to be removed. -/
theorem removal_restricts_of_landings : Reachable landings ∧
    landings.removeConcept "quay" = .ok (.known "quay", landings.part ["hill", "isle"]) ∧
    (landings.part ["hill", "isle"]).named.keys = ["round walk"] ∧
    landings.perform (.removeConcept "moon") = ⟨landings, some (.missingConcept "moon")⟩ ∧
    (landings.part ["quay", "isle", "moon"]).part ["moon", "isle", "hill"] =
      landings.part ["isle", "moon"] ∧
    landings.performAll [.removeConcept "quay", .removeConcept "isle"] = landings.part ["hill"] ∧
    landings.performAll [.removeConcept "isle", .removeConcept "quay"] = landings.part ["hill"] := by
  have hw : landings.WellFormed := (wellFormed_empty.addConcepts _).addRelations _
  have hg : Reachable landings := .ofRecord hw.toGraph_ofGraph
  obtain ⟨hremoved, habsent, hparts, hall, hswap⟩ := removal_restricts hg
  have hquay : landings.performAll [.removeConcept "quay", .removeConcept "isle"] =
      landings.part ["hill"] := hall ["quay", "isle"]
  refine ⟨hg, hremoved "quay" (.known "quay") (by decide +kernel), by decide +kernel,
    habsent "moon" (by decide +kernel), hparts ["quay", "isle", "moon"] ["moon", "isle", "hill"],
    hquay, (hswap "isle" "quay").trans hquay⟩

end KnowledgeGraph.Graph
