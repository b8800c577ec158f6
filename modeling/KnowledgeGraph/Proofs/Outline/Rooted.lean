import KnowledgeGraph.Proofs.Outline.RoundTrip

/-!
# Writing from a concept

The walk from a concept meets just what is reached from it. No relation leads out of this, so the outline
that the walk writes says the part of the graph that is reached, and nothing more. Main statement: reading
this outline gives the part that the reached concepts span, also where relations run in circles.
-/

namespace KnowledgeGraph.Outline

variable {g : Graph} {root : String} {ids : List String}

/-- What concepts span that no relation leads out of is kept in the graph. -/
theorem keptIn_part (hw : g.WellFormed) (hc : g.Closed ids) : KeptIn (g.part ids) g where
  toWellFormed := hw.part ids
  reference_eq := by
    intro id hid
    obtain ⟨hhas, hmem⟩ := hw.hasConcept_part.mp hid
    obtain ⟨concept, hconcept⟩ := Graph.hasConcept_iff.mp hhas
    have hpart : (g.part ids).concepts.get? id = some concept := by
      rw [hw.part_concepts, Dict.get?_filter, Option.filter_eq_some_iff]
      exact ⟨hconcept, List.contains_iff_mem.mpr hmem⟩
    rw [referenceTo, referenceTo, Graph.concept?, Graph.concept?, hpart, hconcept]
  relation_mem := by
    intro relation hr hs
    have hsource := (hw.hasConcept_part.mp hs).2
    have htarget := hc _ hsource _ ⟨relation, hr, rfl, rfl⟩
    exact (hw.part ids).mem_relationList.mpr
      (hw.get?_part.mpr ⟨hw.mem_relationList.mp hr, hsource, htarget⟩)

/-- A part of a graph that can be told can be told. -/
theorem Tellable.part (h : Tellable g) (ids : List String) : Tellable (g.part ids) where
  toNotationShaped := h.toNotationShaped.part ids
  id_readable id hid := h.id_readable id (h.hasConcept_part.mp hid).1
  type_writable id relation hg := h.type_writable id relation (h.get?_part.mp hg).1

/-- The outline from a concept has it alone at the top. -/
theorem ofRoot_eq (hw : g.WellFormed) (hroot : g.hasConcept root = true) (markFanOut : Bool) :
    ofRoot g root markFanOut = .ok [(referenceTo g root,
      (writeConcept g markFanOut g.concepts.size [] root).1.entries)] := by
  obtain ⟨concept, hc, rfl⟩ := hw.exists_mem_conceptList.mpr hroot
  unfold ofRoot
  rw [Graph.requireConcept_eq_ok.mpr (hw.mem_conceptList.mp hc), referenceTo_eq hw hc]
  rfl

/-- The walk from a concept, where nothing was met before, meets just what is reached from it. -/
theorem mem_writeConcept_nil {markFanOut : Bool} (h : TellsApart g markFanOut)
    (hroot : g.hasConcept root = true) {id : String} :
    id ∈ (writeConcept g markFanOut g.concepts.size [] root).2 ↔ g.Reaches root id := by
  rw [mem_writeConcept h (.nil g) hroot List.not_mem_nil, or_iff_right List.not_mem_nil]

/-- A single concept says that it is mentioned and what stands under it. -/
theorem conceptsSteps_singleton (reference : String) (branches : Branches) :
    conceptsSteps [(reference, branches)] = .mention reference :: branchesSteps reference branches := by
  rw [conceptsSteps, conceptsSteps, List.append_nil]

/-- What is written from a concept of a part that no relation leads out of is accounted for by the part. -/
theorem accountsFor_ofRoot (hw : g.WellFormed) (hc : g.Closed ids) (hroot : g.hasConcept root = true)
    (hmem : root ∈ ids) {markFanOut : Bool} : ∀ step ∈ conceptsSteps [(referenceTo g root,
      (writeConcept g markFanOut g.concepts.size [] root).1.entries)],
      AccountsFor (g.part ids) markFanOut step := by
  have hkept := keptIn_part hw hc
  have hstart := hw.hasConcept_part.mpr ⟨hroot, hmem⟩
  intro step hstep
  rw [conceptsSteps_singleton] at hstep
  rcases List.mem_cons.mp hstep with rfl | hstep
  · exact ⟨root, hstart, (hkept.reference_eq root hstart).symm⟩
  · exact accountsFor_writeConcept hkept g.concepts.size [] root hstart step hstep

/-- The outline from a concept is read as the part that is reached. -/
theorem toGraph_ofRoot_of_mem_iff (h : Tellable g) (hroot : g.hasConcept root = true)
    (hids : ∀ id, id ∈ ids ↔ g.Reaches root id) (markFanOut : Bool) :
    (ofRoot g root markFanOut >>= toGraph) = .ok (g.part ids) := by
  have hapart := h.tellsApart markFanOut
  have hclosed : g.Closed ids := fun id hid next hlead =>
    (hids next).mpr (((hids id).mp hid).tail hlead)
  have hcovers := covers_writeConcept hapart g.concepts.size [] root hroot List.not_mem_nil
    (remaining_le_size g [])
  have hmet : ∀ id ∈ ids, id ∈ (writeConcept g markFanOut g.concepts.size [] root).2 :=
    fun id hid => (mem_writeConcept_nil hapart hroot).mpr ((hids id).mp hid)
  have haccounts := @accountsFor_ofRoot g root ids h.toWellFormed hclosed hroot
    ((hids root).mpr .refl) markFanOut
  rw [ofRoot_eq h.toWellFormed hroot]
  change toGraph [_] = _
  refine toGraph_eq_ok_of_says (h.part ids) haccounts ?_ ?_
  · intro id hid
    obtain ⟨hhas, hmem⟩ := h.hasConcept_part.mp hid
    have hmention := hcovers.mentions id (hmet id hmem) List.not_mem_nil
    rwa [h.referenceTo_eq hhas, ← conceptsSteps_singleton] at hmention
  · intro relation hr
    obtain ⟨hg, hsource, -⟩ := h.get?_part.mp ((h.part ids).mem_relationList.mp hr)
    have hlisted := h.mem_relationList.mpr hg
    have hstated := (hcovers.states _ (hmet _ hsource) List.not_mem_nil relation hlisted rfl).2
    rw [conceptsSteps_singleton]
    exact states_of_stated h hlisted hstated

/-- The outline that is written from a concept of a graph that can be told is read as the part that the
concepts reached from it span, itself among them, whether fan-out is marked or not. -/
theorem toGraph_ofRoot (h : Tellable g) (hroot : g.hasConcept root = true) :
    ∃ ids : List String, (∀ id, id ∈ ids ↔ g.Reaches root id) ∧
      ∀ markFanOut, (ofRoot g root markFanOut >>= toGraph) = .ok (g.part ids) := by
  have hids : ∀ id, id ∈ (writeConcept g false g.concepts.size [] root).2 ↔ g.Reaches root id :=
    fun id => mem_writeConcept_nil (h.tellsApart false) hroot
  exact ⟨_, hids, toGraph_ofRoot_of_mem_iff h hroot hids⟩

/-- Roads and railways, with circles that roads lead into from outside and a place apart. -/
def roads : Graph :=
  .ofStatements ["abbey", "bridge", "farm", "harbour", "market", "mill", "station", "tower", "?ruin"]
    [⟨"harbour", "road", "market"⟩, ⟨"market", "road", "mill"⟩, ⟨"mill", "road", "market"⟩,
      ⟨"market", "rail", "station"⟩, ⟨"mill", "rail", "station"⟩, ⟨"station", "rail", "station"⟩,
      ⟨"farm", "road", "mill"⟩, ⟨"abbey", "road", "bridge"⟩, ⟨"bridge", "road", "abbey"⟩,
      ⟨"bridge", "road", "mill"⟩, ⟨"tower", "road", "tower"⟩, ⟨"tower", "road", "abbey"⟩]

/-- From the market the mill and the station are reached, and nothing else; the roads that lead to the mill
from elsewhere are left out. -/
theorem toGraph_ofRoot_of_roads : Tellable roads ∧ roads.hasConcept "market" = true ∧
    (∃ ids : List String, (∀ id, id ∈ ids ↔ roads.Reaches "market" id) ∧
      ∀ markFanOut, (ofRoot roads "market" markFanOut >>= toGraph) = .ok (roads.part ids)) ∧
    (ofRoot roads "market" true >>= toGraph) = .ok (roads.part ["market", "mill", "station"]) := by
  have htold : Tellable roads := .of_lists (.ofStatements _ _) (by decide +kernel) (by decide +kernel)
  have hroot : roads.hasConcept "market" = true := by decide +kernel
  exact ⟨htold, hroot, toGraph_ofRoot htold hroot, by decide +kernel⟩

end KnowledgeGraph.Outline
