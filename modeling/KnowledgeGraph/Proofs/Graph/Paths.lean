import KnowledgeGraph.Proofs.Graph.Notation
import Mathlib.Logic.Relation

/-!
# Paths

Relations lead from one concept to the next, in their direction, on all paths or on those past a set of
concepts. A set of concepts that no relation leads out of has all that is reached from its members.
-/

namespace KnowledgeGraph.Graph

variable {g : Graph} {source target id : String}

/-- Some relation leads from one concept to another. -/
def Leads (g : Graph) (source target : String) : Prop :=
  ∃ relation ∈ g.relationList, relation.triple.source = source ∧ relation.triple.target = target

/-- Some relation leads to a concept. -/
def Entered (g : Graph) (id : String) : Prop :=
  ∃ relation ∈ g.relationList, relation.triple.target = id

instance : Decidable (g.Leads source target) :=
  inferInstanceAs (Decidable (∃ relation ∈ g.relationList,
    relation.triple.source = source ∧ relation.triple.target = target))

instance : Decidable (g.Entered id) :=
  inferInstanceAs (Decidable (∃ relation ∈ g.relationList, relation.triple.target = id))

/-- Relations, one after the other, lead from one concept to another, or it is the same. -/
def Reaches (g : Graph) : String → String → Prop := Relation.ReflTransGen g.Leads

/-- Relations, one after the other, lead from one concept to another, and none of them to a concept of a
set. -/
def ReachesPast (g : Graph) (ids : List String) : String → String → Prop :=
  Relation.ReflTransGen fun source target => g.Leads source target ∧ target ∉ ids

/-- No relation leads out of a set of concepts. -/
def Closed (g : Graph) (ids : List String) : Prop :=
  ∀ id ∈ ids, ∀ next, g.Leads id next → next ∈ ids

/-- A concept that is reached from another one is led to. -/
theorem Reaches.entered (h : g.Reaches source target) (hne : source ≠ target) :
    g.Entered target := by
  rcases Relation.ReflTransGen.cases_tail h with same | ⟨before, -, relation, hr, -, ht⟩
  · exact absurd same.symm hne
  · exact ⟨relation, hr, ht⟩

/-- What is reached past a set of concepts is reached. -/
theorem ReachesPast.reaches {ids : List String} (h : g.ReachesPast ids source target) :
    g.Reaches source target :=
  Relation.ReflTransGen.mono (fun _ _ hstep => hstep.1) _ _ h

/-- What is reached past a set of concepts is reached past fewer of them. -/
theorem ReachesPast.of_subset {ids ids' : List String} (h : g.ReachesPast ids source target)
    (hs : ∀ id ∈ ids', id ∈ ids) : g.ReachesPast ids' source target :=
  Relation.ReflTransGen.mono (fun _ next hstep => ⟨hstep.1, fun hn => hstep.2 (hs next hn)⟩) _ _ h

/-- No relation leads out of no concepts. -/
theorem Closed.nil (g : Graph) : g.Closed [] := fun _ hid => absurd hid List.not_mem_nil

/-- What is reached from a member of a set that no relation leads out of is in the set. -/
theorem Closed.mem_of_reaches {ids : List String} (h : g.Closed ids)
    (hr : g.Reaches source target) (hs : source ∈ ids) : target ∈ ids := by
  induction hr with
  | refl => exact hs
  | tail _ hlead ih => exact h _ ih _ hlead

/-- A relation leads to a concept of the graph. -/
theorem WellFormed.hasConcept_of_entered (h : g.WellFormed) (he : g.Entered id) :
    g.hasConcept id = true := by
  obtain ⟨relation, hr, rfl⟩ := he
  exact h.target_mem _ _ (h.mem_relationList.mp hr)

/-- A part has the concepts of the set that it is spanned by. -/
theorem WellFormed.hasConcept_part (h : g.WellFormed) {ids : List String} :
    (g.part ids).hasConcept id = true ↔ g.hasConcept id = true ∧ id ∈ ids := by
  rw [← hasConcept_unrelated, hasConcept, h.part_concepts]
  rfl

end KnowledgeGraph.Graph
