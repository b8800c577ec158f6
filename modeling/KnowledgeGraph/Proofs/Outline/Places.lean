import KnowledgeGraph.Proofs.Outline.Traversal

/-!
# The places of an outline

A concept may stand at several places of an outline, with relations of its own under it at some of them
and as a bare reference at others. What stands under it at one place states triples of it. The term of
some targets has the places that are written out for them, and leads to each of them once.
-/

namespace KnowledgeGraph.Outline

mutual

/-- The places of a term: concepts by reference, each with what stands under it there. A bare reference is
a place under which nothing stands. -/
def termPlaces : Term → List (String × Branches)
  | .reference text => [(text, [])]
  | .several terms => termsPlaces terms
  | .nested concepts => conceptsPlaces concepts

/-- The places of terms together. -/
def termsPlaces : List Term → List (String × Branches)
  | [] => []
  | term :: terms => termPlaces term ++ termsPlaces terms

/-- The places of concepts, with all those below them. -/
def conceptsPlaces : List (String × Branches) → List (String × Branches)
  | [] => []
  | (reference, branches) :: rest =>
    (reference, branches) :: (branchesPlaces branches ++ conceptsPlaces rest)

/-- The places of what stands under relation keys. -/
def branchesPlaces : Branches → List (String × Branches)
  | [] => []
  | (_, term) :: rest => termPlaces term ++ branchesPlaces rest

end

/-- The triples that a place states: what each key under the concept, if it can be read, says of it and of
the top concepts of what stands under the key. -/
def placeTriples (place : String × Branches) : List Triple :=
  place.2.flatMap fun branch =>
    match RelationKey.parse branch.1 with
    | .ok key => (termTops branch.2).map (key.triple place.1)
    | .error _ => []

variable {reference : String} {branches branches' : Branches} {concepts concepts' : List (String × Branches)}

/-- The places of concepts are those of each. -/
theorem conceptsPlaces_eq (concepts : List (String × Branches)) :
    conceptsPlaces concepts = concepts.flatMap fun concept => concept :: branchesPlaces concept.2 := by
  induction concepts with
  | nil => rw [conceptsPlaces, List.flatMap_nil]
  | cons concept rest ih =>
    obtain ⟨reference, branches⟩ := concept
    rw [conceptsPlaces, ih, List.flatMap_cons, List.cons_append]

/-- The places under keys are those under each. -/
theorem branchesPlaces_eq (branches : Branches) :
    branchesPlaces branches = branches.flatMap fun branch => termPlaces branch.2 := by
  induction branches with
  | nil => rw [branchesPlaces, List.flatMap_nil]
  | cons branch rest ih =>
    obtain ⟨text, term⟩ := branch
    rw [branchesPlaces, ih, List.flatMap_cons]

/-- The places of a single concept are its own and those below it. -/
theorem conceptsPlaces_singleton (concept : String × Branches) :
    conceptsPlaces [concept] = concept :: branchesPlaces concept.2 := by
  rw [conceptsPlaces_eq, List.flatMap_singleton]

/-- The places of concepts are those of the first one and of the others. -/
theorem conceptsPlaces_cons (concept : String × Branches) (rest : List (String × Branches)) :
    conceptsPlaces (concept :: rest) = conceptsPlaces [concept] ++ conceptsPlaces rest := by
  rw [conceptsPlaces_singleton, conceptsPlaces_eq, List.flatMap_cons, ← conceptsPlaces_eq]

/-- The order of concepts does not matter to their places. -/
theorem conceptsPlaces_perm (h : concepts.Perm concepts') :
    (conceptsPlaces concepts).Perm (conceptsPlaces concepts') := by
  rw [conceptsPlaces_eq, conceptsPlaces_eq]
  exact h.flatMap_right _

/-- The order of keys does not matter to the places under them. -/
theorem branchesPlaces_perm (h : branches.Perm branches') :
    (branchesPlaces branches).Perm (branchesPlaces branches') := by
  rw [branchesPlaces_eq, branchesPlaces_eq]
  exact h.flatMap_right _

/-- The order of keys does not matter to what a place states. -/
theorem placeTriples_perm (h : branches.Perm branches') :
    (placeTriples (reference, branches)).Perm (placeTriples (reference, branches')) :=
  h.flatMap_right _

/-- A bare reference states nothing. -/
theorem placeTriples_bare (reference : String) : placeTriples (reference, []) = [] := rfl

/-- A place states what its first key says and what the others say. -/
theorem placeTriples_cons {text : String} {key : RelationKey} (hk : RelationKey.parse text = .ok key)
    (term : Term) (rest : Branches) : placeTriples (reference, (text, term) :: rest) =
      (termTops term).map (key.triple reference) ++ placeTriples (reference, rest) := by
  unfold placeTriples
  rw [List.flatMap_cons]
  simp only [hk]

/-- The term of targets with references of their own has the places that are written out. -/
theorem termPlaces_perm {targets : List (String × Dict Term)} (hn : (targets.map (·.1)).Nodup) :
    (termPlaces (termOf targets)).Perm (conceptsPlaces (written targets)) := by
  rcases termOf_cases targets with ⟨only, ht, hterm⟩ | ⟨concepts, hterm, -, hall⟩
  · rw [hterm, termPlaces, ht, written, List.map_singleton, conceptsPlaces_singleton]
    exact .refl _
  · rw [hterm, termPlaces]
    exact conceptsPlaces_perm (hall hn)

/-- It leads to each of the targets. -/
theorem termTops_perm {targets : List (String × Dict Term)} (hn : (targets.map (·.1)).Nodup) :
    (termTops (termOf targets)).Perm (targets.map (·.1)) := by
  rcases termOf_cases targets with ⟨only, ht, hterm⟩ | ⟨concepts, hterm, -, hall⟩
  · rw [hterm, termTops, ht]
    exact .refl _
  · rw [hterm, termTops, ← map_written]
    exact (hall hn).map _

end KnowledgeGraph.Outline
