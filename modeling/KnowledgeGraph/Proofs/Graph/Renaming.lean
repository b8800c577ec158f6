import KnowledgeGraph.Proofs.Graph.Parts
import KnowledgeGraph.Proofs.Graph.Saying

/-!
# Substitution as renaming

A substitution that comes to its end renames one concept in every triple and leaves all other concepts
alone. Several substitutions, one after the other, do to a graph what all of them do at once, as long as
no concept that is put in is itself replaced. Main statement: `Substituted.substitute`, the step by which
one more concept is replaced.
-/

namespace KnowledgeGraph

/-- A triple with both ends renamed. -/
def Triple.renamed (name : String → String) (t : Triple) : Triple :=
  ⟨name t.source, t.type, name t.target⟩

/-- Renaming one id after others renames all of them at once. -/
theorem Triple.rename_renamed (t : Triple) (name : String → String) (old new : String) :
    (t.renamed name).rename old new =
      t.renamed fun id => if name id = old then new else name id := rfl

/-- A triple in which an id takes its own place stays what it is. -/
theorem Triple.rename_self (t : Triple) (id : String) : t.rename id id = t := by
  have hsame : ∀ name : String, (if name = id then id else name) = name := fun name =>
    ite_eq_right_iff.mpr Eq.symm
  rw [rename, hsame, hsame]

namespace Graph

variable {g g' g'' : Graph} {concept : Concept} {id placeholder : String} {triple : Triple}

/-- What is laid over a concept twice is laid over it once. -/
theorem laidOver_of_laidOver (h : g'.concepts.get? concept.id = some (g.laidOver concept)) :
    g'.laidOver concept = g.laidOver concept := by
  have hover : (g.laidOver concept).overlay concept = g.laidOver concept := by
    unfold laidOver
    cases g.concept? concept.id with
    | none => exact concept.overlay_self
    | some existing => exact existing.overlay_overlay concept
  conv_lhs => unfold laidOver concept?
  rw [h]
  exact hover

/-- A concept can only be put in the place of one that is there. -/
theorem hasConcept_of_substitute (hs : (g.substitute placeholder concept).toExcept = .ok g') :
    g.hasConcept placeholder = true := by
  unfold substitute at hs
  split at hs
  next => cases hs
  next hc => simpa using hc

/-- A substitution takes the placeholder away and lays the replacement over what has its id. -/
theorem get?_substitute (hn : placeholder ≠ concept.id)
    (hs : (g.substitute placeholder concept).toExcept = .ok g') :
    g'.concepts.get? id = if concept.id = id then some (g.laidOver concept)
      else if id = placeholder then none else g.concepts.get? id := by
  rcases substitute_eq_ok hs with ⟨same, -⟩ | ⟨-, hadded⟩
  · exact absurd same hn
  · rw [← (toExcept_eq_ok.mp hadded).2, addRelations_concepts, vacated, removeRelations_eq,
      get?_addConcept, Dict.get?_erase]
    have hlaid : laidOver { g with concepts := g.concepts.erase placeholder } concept =
        g.laidOver concept := by
      unfold laidOver concept?
      rw [Dict.get?_erase, if_neg hn.symm]
    rw [hlaid]

/-- A substitution renames the placeholder in every triple. -/
theorem WellFormed.says_substitute (h : g.WellFormed) (hn : placeholder ≠ concept.id)
    (hs : (g.substitute placeholder concept).toExcept = .ok g') :
    g'.Says triple ↔ ∃ before, g.Says before ∧ before.rename placeholder concept.id = triple := by
  rcases substitute_eq_ok hs with ⟨same, -⟩ | ⟨-, hadded⟩
  · exact absurd same hn
  · rw [says_addRelations hadded]
    constructor
    · rintro (hstays | ⟨rewired, hr, rfl⟩)
      · obtain ⟨id, relation, hg, rfl⟩ := says_iff.mp hstays
        obtain ⟨hg, hsource, htarget⟩ := h.get?_vacated.mp hg
        refine ⟨relation.triple, says_iff.mpr ⟨id, relation, hg, rfl⟩, ?_⟩
        simp only [Triple.rename, if_neg hsource, if_neg htarget]
      · obtain ⟨relation, htouch, rfl⟩ := List.mem_map.mp hr
        exact ⟨relation.triple, ⟨relation, List.mem_of_mem_filter htouch, rfl⟩, rfl⟩
    · rintro ⟨_, ⟨relation, hr, rfl⟩, rfl⟩
      by_cases ht : relation.touches placeholder .both = true
      · exact .inr ⟨_, List.mem_map_of_mem (List.mem_filter.mpr ⟨hr, ht⟩), rfl⟩
      · simp only [Relation.touches, Bool.or_eq_true, decide_eq_true_eq, not_or] at ht
        refine .inl (says_iff.mpr ⟨relation.id, relation, ?_, ?_⟩)
        · exact h.get?_vacated.mpr ⟨h.mem_relationList.mp hr, ht⟩
        · simp only [Triple.rename, if_neg ht.1, if_neg ht.2]

/-- A substitution renames one concept among those of a graph. -/
theorem hasConcept_iff_of_substitute (hs : (g.substitute placeholder concept).toExcept = .ok g') :
    g'.hasConcept id = true ↔ ∃ before, g.hasConcept before = true ∧
      (if before = placeholder then concept.id else before) = id := by
  have hthere := hasConcept_of_substitute hs
  have hnew : g'.hasConcept id = true ↔
      concept.id = id ∨ id ≠ placeholder ∧ g.hasConcept id = true := by
    by_cases hn : placeholder = concept.id
    · obtain ⟨-, rfl⟩ := (substitute_eq_ok hs).resolve_right fun other => other.1 hn
      rw [hasConcept_addConcept, hn]
      by_cases same : concept.id = id
      · simp [same]
      · simp [same, Ne.symm same]
    · rw [hasConcept, Dict.contains_iff, get?_substitute hn hs, hasConcept, Dict.contains_iff]
      by_cases same : concept.id = id
      · simp [same]
      · by_cases hp : id = placeholder <;> simp [same, hp]
  rw [hnew]
  constructor
  · rintro (rfl | ⟨hn, hc⟩)
    · exact ⟨placeholder, hthere, if_pos rfl⟩
    · exact ⟨id, hc, if_neg hn⟩
  · rintro ⟨before, hc, rfl⟩
    split
    next => exact .inl rfl
    next hn => exact .inr ⟨hn, hc⟩

/-- A substitution renames one concept in the triples of a graph, also if it keeps its name. -/
theorem WellFormed.says_iff_of_substitute (h : g.WellFormed)
    (hs : (g.substitute placeholder concept).toExcept = .ok g') :
    g'.Says triple ↔ ∃ before, g.Says before ∧ before.rename placeholder concept.id = triple := by
  by_cases hn : placeholder = concept.id
  · obtain ⟨-, rfl⟩ := (substitute_eq_ok hs).resolve_right fun other => other.1 hn
    simp only [hn, Triple.rename_self, exists_eq_right]
    exact Iff.rfl
  · exact h.says_substitute hn hs

/-- The id a concept has once those that are replaced are. -/
def image (standIn? : String → Option Concept) (id : String) : String :=
  match standIn? id with
  | some concept => concept.id
  | none => id

/-- A replaced concept gets the id of what stands in for it. -/
theorem image_of_some {standIn? : String → Option Concept} (h : standIn? id = some concept) :
    image standIn? id = concept.id := by
  rw [image, h]

/-- A concept that is not replaced keeps its id. -/
theorem image_of_none {standIn? : String → Option Concept} (h : standIn? id = none) :
    image standIn? id = id := by
  rw [image, h]

/-- Renaming a concept after those that are replaced, none of which gets its name, replaces it too. -/
theorem image_update {standIn? : String → Option Concept} (hp : standIn? placeholder = none)
    (hrange : ∀ id other, standIn? id = some other → other.id ≠ placeholder) (id : String) :
    (if image standIn? id = placeholder then concept.id else image standIn? id) =
      image (Function.update standIn? placeholder (some concept)) id := by
  unfold image
  by_cases same : id = placeholder
  · subst same
    rw [hp, Function.update_self, if_pos rfl]
  · rw [Function.update_of_ne same]
    cases ho : standIn? id with
    | none => exact if_neg same
    | some other => exact if_neg (hrange id other ho)

/-- All replaced concepts of a graph are replaced at once: others stand in for them, laid over what has
their ids, every other concept is as it was, and the triples are those of the graph with all names
changed. -/
structure Substituted (standIn? : String → Option Concept) (g g' : Graph) : Prop where
  /-- What stands in is laid over what has its id. -/
  placed : ∀ id concept, standIn? id = some concept →
    g'.concepts.get? concept.id = some (g.laidOver concept)
  /-- What is replaced is gone. -/
  gone : ∀ id concept, standIn? id = some concept → g'.concepts.get? id = none
  /-- What neither is replaced nor has the id of a concept that stands in is as it was. -/
  kept : ∀ id, standIn? id = none → (∀ other concept, standIn? other = some concept → concept.id ≠ id) →
    g'.concepts.get? id = g.concepts.get? id
  /-- The triples are those of the graph with all names changed. -/
  says_iff : ∀ triple, g'.Says triple ↔ ∃ before, g.Says before ∧ before.renamed (image standIn?) = triple

/-- Where nothing stands in, nothing is replaced. -/
theorem Substituted.refl (g : Graph) : Substituted (fun _ => none) g g where
  placed := nofun
  gone := nofun
  kept _ _ _ := rfl
  says_iff triple := ⟨fun hsaid => ⟨triple, hsaid, rfl⟩, fun ⟨_, hsaid, heq⟩ => heq ▸ hsaid⟩

/-- A concept for whose id nothing stands in occurs if it did and was not replaced. -/
theorem Substituted.hasConcept_iff {standIn? : String → Option Concept} (h : Substituted standIn? g g')
    (hother : ∀ other concept, standIn? other = some concept → concept.id ≠ id) :
    g'.hasConcept id = true ↔ standIn? id = none ∧ g.hasConcept id = true := by
  unfold hasConcept
  rw [Dict.contains_iff, Dict.contains_iff]
  cases hs : standIn? id with
  | none => simp only [h.kept id hs hother, true_and]
  | some concept => simp [h.gone id concept hs]

/-- What has a new name in a graph is there when all names are changed. -/
theorem Substituted.hasConcept_image {standIn? : String → Option Concept}
    (h : Substituted standIn? g g') (hc : g.hasConcept id = true) :
    g'.hasConcept (image standIn? id) = true := by
  unfold image
  cases hs : standIn? id with
  | some concept => exact Dict.contains_of_get? (h.placed id concept hs)
  | none =>
    by_cases hplaced : ∃ other concept, standIn? other = some concept ∧ concept.id = id
    · obtain ⟨other, concept, ho, rfl⟩ := hplaced
      exact Dict.contains_of_get? (h.placed other concept ho)
    · push Not at hplaced
      exact (h.hasConcept_iff hplaced).mpr ⟨hs, hc⟩

/-- If only concepts of the graph are replaced, its concepts have all their names changed. -/
theorem Substituted.hasConcept_iff_image {standIn? : String → Option Concept}
    (h : Substituted standIn? g g')
    (hg : ∀ other concept, standIn? other = some concept → g.hasConcept other = true) :
    g'.hasConcept id = true ↔ ∃ other, g.hasConcept other = true ∧ image standIn? other = id := by
  constructor
  · intro hc
    by_cases hplaced : ∃ other concept, standIn? other = some concept ∧ concept.id = id
    · obtain ⟨other, concept, ho, rfl⟩ := hplaced
      exact ⟨other, hg other concept ho, image_of_some ho⟩
    · push Not at hplaced
      obtain ⟨hnone, hold⟩ := (h.hasConcept_iff hplaced).mp hc
      exact ⟨id, hold, image_of_none hnone⟩
  · rintro ⟨other, ho, rfl⟩
    exact h.hasConcept_image ho

/-- What is laid over a concept is the same before and after others are replaced. -/
theorem Substituted.laidOver_eq {standIn? : String → Option Concept}
    (h : Substituted standIn? g g') (hc : standIn? concept.id = none)
    (hrange : ∀ id other, standIn? id = some other → other.id = concept.id → other = concept) :
    g'.laidOver concept = g.laidOver concept := by
  by_cases hplaced : ∃ id other, standIn? id = some other ∧ other.id = concept.id
  · obtain ⟨id, other, ho, same⟩ := hplaced
    obtain rfl := hrange id other ho same
    exact laidOver_of_laidOver (h.placed id other ho)
  · push Not at hplaced
    unfold laidOver concept?
    rw [h.kept concept.id hc hplaced]

/-- One more concept is replaced by a substitution, if the new one is not replaced itself and the old
one stands in for nothing. Concepts that stand in are told apart by their ids. -/
theorem Substituted.substitute {standIn? : String → Option Concept}
    (h : Substituted standIn? g g') (hw : g'.WellFormed)
    (hp : standIn? placeholder = none) (hn : placeholder ≠ concept.id)
    (hc : standIn? concept.id = none)
    (hother : ∀ id other, standIn? id = some other → other.id ≠ placeholder)
    (hsame : ∀ id other, standIn? id = some other → other.id = concept.id → other = concept)
    (hs : (g'.substitute placeholder concept).toExcept = .ok g'') :
    Substituted (Function.update standIn? placeholder (some concept)) g g'' where
  placed := by
    intro id other ho
    rw [get?_substitute hn hs, h.laidOver_eq hc hsame]
    by_cases hid : id = placeholder
    · subst hid
      rw [Function.update_self] at ho
      cases ho
      rw [if_pos rfl]
    · rw [Function.update_of_ne hid] at ho
      by_cases same : concept.id = other.id
      · rw [if_pos same, hsame id other ho same.symm]
      · rw [if_neg same, if_neg (hother id other ho), h.placed id other ho]
  gone := by
    intro id other ho
    rw [get?_substitute hn hs]
    by_cases hid : id = placeholder
    · rw [hid, if_neg hn.symm, if_pos rfl]
    · rw [Function.update_of_ne hid] at ho
      have hnew : concept.id ≠ id := by
        rintro rfl
        rw [hc] at ho
        cases ho
      rw [if_neg hnew, if_neg hid, h.gone id other ho]
  kept := by
    intro id hid hstands
    have hnew : concept.id ≠ id := hstands placeholder concept (Function.update_self ..)
    have hold : id ≠ placeholder := by
      rintro rfl
      rw [Function.update_self] at hid
      cases hid
    rw [Function.update_of_ne hold] at hid
    rw [get?_substitute hn hs, if_neg hnew, if_neg hold]
    refine h.kept id hid fun before other ho => hstands before other ?_
    rw [Function.update_of_ne, ho]
    rintro rfl
    rw [hp] at ho
    cases ho
  says_iff := by
    intro triple
    rw [hw.says_substitute hn hs]
    constructor
    · rintro ⟨middle, hm, rfl⟩
      obtain ⟨before, hb, rfl⟩ := (h.says_iff middle).mp hm
      refine ⟨before, hb, ?_⟩
      simp only [Triple.rename_renamed, image_update hp hother]
    · rintro ⟨before, hb, rfl⟩
      refine ⟨before.renamed (image standIn?), (h.says_iff _).mpr ⟨before, hb, rfl⟩, ?_⟩
      simp only [Triple.rename_renamed, image_update hp hother]

end Graph

end KnowledgeGraph
