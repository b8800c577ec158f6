import KnowledgeGraph.Proofs.Outline.Coverage

/-!
# Writing and reading

A graph is read back from its outline just when it can be told: when references and triples say all of it,
its ids can be read and its types can be written. Marking fan-out does not change what is read then.
Cycles, loops, shared targets and several parts make no difference. Nothing else is ever read as the same
graph by chance: a type that ends with the suffix for several targets could only come back if another
type ended with the suffix once more, and so on without end.
-/

namespace KnowledgeGraph.Outline

variable {g : Graph} {markFanOut : Bool} {step : Step} {triple : Triple}

/-- Every step of the outline of a graph that can be told can be read. -/
theorem readable_of_accountsFor (h : Tellable g) (hs : AccountsFor g markFanOut step) :
    step.Readable := by
  cases step with
  | mention reference =>
    obtain ⟨id, hid, rfl⟩ := hs
    rw [h.referenceTo_eq hid]
    exact h.id_readable id hid
  | key text =>
    obtain ⟨relation, hr, toAll, -, rfl⟩ := hs
    exact ⟨_, RelationKey.parse_forward (h.type_writable _ _ (h.mem_relationList.mp hr)) toAll⟩
  | state text above below =>
    obtain ⟨relation, hr, toAll, -, rfl, -, -⟩ := hs
    exact ⟨_, RelationKey.parse_forward (h.type_writable _ _ (h.mem_relationList.mp hr)) toAll⟩

/-- A step of the outline of a graph that can be told states a triple of the graph. -/
theorem says_of_accountsFor (h : Tellable g) (hs : AccountsFor g markFanOut step)
    (ht : step.States triple) : ∃ relation ∈ g.relationList, relation.triple = triple := by
  obtain ⟨text, above, below, key, rfl, hkey, rfl⟩ := ht
  obtain ⟨relation, hr, toAll, -, rfl, rfl, rfl⟩ := hs
  have hg := h.mem_relationList.mp hr
  have hsource := h.referenceTo_eq (h.source_mem _ _ hg)
  have htarget := h.referenceTo_eq (h.target_mem _ _ hg)
  rw [RelationKey.parse_forward (h.type_writable _ _ hg) toAll] at hkey
  cases hkey
  rw [hsource, htarget]
  exact ⟨relation, hr, rfl⟩

/-- A statement of a relation of a graph that can be told states its triple. -/
theorem states_of_stated (h : Tellable g) {steps : List Step} {relation : Relation}
    (hr : relation ∈ g.relationList) (hs : Stated g steps relation.triple) :
    ∃ step ∈ steps, step.States relation.triple := by
  obtain ⟨toAll, hstep⟩ := hs
  have hg := h.mem_relationList.mp hr
  rw [h.referenceTo_eq (h.source_mem _ _ hg), h.referenceTo_eq (h.target_mem _ _ hg)] at hstep
  have hparse := RelationKey.parse_forward (h.type_writable _ _ hg) toAll
  exact ⟨_, hstep, (states_state hparse).mpr rfl⟩

/-- An outline that says all of a graph that can be told, and no more, is read as the graph. -/
theorem toGraph_eq_ok_of_says (h : Tellable g) {outline : Outline}
    (haccounts : ∀ step ∈ conceptsSteps outline, AccountsFor g markFanOut step)
    (hmentions : ∀ id, g.hasConcept id = true → .mention id ∈ conceptsSteps outline)
    (hstates : ∀ relation ∈ g.relationList,
      ∃ step ∈ conceptsSteps outline, step.States relation.triple) : toGraph outline = .ok g := by
  refine toGraph_eq_ok_iff.mpr ⟨?_, h.toNotationShaped, ?_, ?_⟩
  · exact fun step hstep => readable_of_accountsFor h (haccounts step hstep)
  · intro id
    refine ⟨hmentions id, fun hmem => ?_⟩
    obtain ⟨other, hother, rfl⟩ := haccounts _ hmem
    rw [h.referenceTo_eq hother]
    exact hother
  · intro triple
    rw [← h.says_iff]
    constructor
    · rintro ⟨relation, hr, rfl⟩
      exact hstates relation hr
    · rintro ⟨step, hstep, ht⟩
      exact says_of_accountsFor h (haccounts step hstep) ht

/-- A graph that can be told is read back, whether fan-out is marked or not. -/
theorem toGraph_ofGraph (h : Tellable g) (markFanOut : Bool) :
    toGraph (ofGraph g markFanOut) = .ok g := by
  obtain ⟨hmentions, hstates⟩ := covers_ofGraph (h.tellsApart markFanOut)
  refine toGraph_eq_ok_of_says h (fun step hstep => accountsFor_ofGraph h.toWellFormed hstep) ?_ ?_
  · intro id hid
    have hmention := hmentions id hid
    rwa [h.referenceTo_eq hid] at hmention
  · exact fun relation hr => states_of_stated h hr (hstates relation hr)

/-- If each type with the suffix had the type with one more suffix beside it, types would grow without
end. -/
theorem ne_suffix_of_grows
    (h : ∀ relation ∈ g.relationList, ∀ front, relation.triple.type = front ++ RelationKey.suffix →
      ∃ other ∈ g.relationList, other.triple.type = relation.triple.type ++ RelationKey.suffix)
    {relation : Relation} (hr : relation ∈ g.relationList) (front : String) :
    relation.triple.type ≠ front ++ RelationKey.suffix := by
  intro hfront
  have hgrows : ∀ n, ∃ other ∈ g.relationList, n ≤ other.triple.type.length ∧
      ∃ front, other.triple.type = front ++ RelationKey.suffix := by
    intro n
    induction n with
    | zero => exact ⟨relation, hr, Nat.zero_le _, front, hfront⟩
    | succ n ih =>
      obtain ⟨other, ho, hn, front, hfront⟩ := ih
      obtain ⟨longer, hl, hlonger⟩ := h other ho front hfront
      have hlength : longer.triple.type.length = other.triple.type.length + 7 := by
        rw [hlonger, String.length_append]
        rfl
      exact ⟨longer, hl, by omega, _, hlonger⟩
  obtain ⟨other, ho, hn, -⟩ :=
    hgrows (((g.relationList.map fun relation => relation.triple.type.length).max?.getD 0) + 1)
  have hbound := @List.le_max?_getD_of_mem _ _ 0
    (List.mem_map_of_mem (f := fun relation : Relation => relation.triple.type.length) ho)
  omega

/-- A graph that is read back from its outline without marks can be told. -/
theorem tellable_of_toGraph (hw : g.WellFormed) (h : toGraph (ofGraph g false) = .ok g) :
    Tellable g := by
  obtain ⟨hreadable, htells⟩ := toGraph_eq_ok_iff.mp h
  -- The type of a relation is read off the key of one, which has this type or one suffix more.
  have htype : ∀ relation ∈ g.relationList, relation.triple.type ≠ "" ∧
      ∃ other ∈ g.relationList, other.triple.type = relation.triple.type ++ RelationKey.suffix ∨
        ∀ front, relation.triple.type ≠ front ++ RelationKey.suffix := by
    intro relation hr
    have hget := htells.shaped.says_iff.mp ⟨relation, hr, rfl⟩
    obtain ⟨step, hstep, text, above, below, key, rfl, hkey, htriple⟩ :=
      (htells.relations_iff relation.triple).mp hget
    obtain ⟨other, ho, toAll, hmark, htext, -, -⟩ := accountsFor_ofGraph hw hstep
    have hplain : toAll = false := Bool.eq_false_iff.mpr fun marked => Bool.false_ne_true (hmark marked)
    rw [htext, hplain] at hkey
    obtain ⟨harrow, hne, hends⟩ := RelationKey.of_parse_forward hkey
    have hsame : relation.triple.type = key.type := by
      rw [htriple, RelationKey.triple, harrow]
    rw [hsame]
    refine ⟨hne, other, ho, hends.imp_right fun hplain => ?_⟩
    rw [← hplain.1]
    exact hplain.2
  have hgrows : ∀ relation ∈ g.relationList, ∀ front,
      relation.triple.type = front ++ RelationKey.suffix →
        ∃ other ∈ g.relationList, other.triple.type = relation.triple.type ++ RelationKey.suffix := by
    intro relation hr front hfront
    obtain ⟨other, ho, hends⟩ := (htype relation hr).2
    exact ⟨other, ho, hends.resolve_right fun hnone => hnone front hfront⟩
  refine ⟨htells.shaped, fun id hid => ?_, fun id relation hg => ?_⟩
  · exact hreadable _ ((htells.concepts_iff id).mp hid)
  · have hr : relation ∈ g.relationList := Dict.mem_values.mpr ⟨id, hg⟩
    exact ⟨(htype relation hr).1, ne_suffix_of_grows hgrows hr⟩

/-- A well-formed graph is read back from its outline just when it can be told, and then also from its
outline with marks. -/
theorem toGraph_ofGraph_iff_tellable (hw : g.WellFormed) :
    (toGraph (ofGraph g false) = .ok g ↔ Tellable g) ∧
      (Tellable g → toGraph (ofGraph g true) = .ok g) :=
  ⟨⟨tellable_of_toGraph hw, fun h => toGraph_ofGraph h false⟩, fun h => toGraph_ofGraph h true⟩

/-- Three concepts in a circle, one of them with a loop, with a target that is shared and an unknown
concept apart. -/
def tangle : Graph :=
  .ofStatements ["a", "b", "c", "d", "?x"]
    [⟨"a", "next", "b"⟩, ⟨"b", "next", "c"⟩, ⟨"c", "next", "a"⟩, ⟨"a", "knows", "a"⟩,
      ⟨"a", "knows", "d"⟩, ⟨"b", "knows", "d"⟩]

/-- Two concepts and a relation between them whose type ends with the suffix for several targets. -/
def suffixed : Graph := .ofStatements ["a", "b"] [⟨"a", "knows:to_all", "b"⟩]

/-- The tangle is read back with and without marks; the relation whose type has the suffix is not. -/
theorem toGraph_ofGraph_iff_tellable_of_tangle :
    toGraph (ofGraph tangle false) = .ok tangle ∧ toGraph (ofGraph tangle true) = .ok tangle ∧
      toGraph (ofGraph suffixed false) ≠ .ok suffixed := by
  have hids : ∀ id ∈ tangle.concepts.keys, Concept.Readable id := by decide +kernel
  have htypes : ∀ relation ∈ tangle.relationList, RelationKey.Writable relation.triple.type := by
    decide +kernel
  have htangle : Tellable tangle := by
    refine ⟨.ofStatements _ _, fun id hid => ?_, fun id relation hg => ?_⟩
    · exact hids id (Dict.mem_keys.mpr hid)
    · exact htypes relation (Dict.mem_values.mpr ⟨id, hg⟩)
  have hsuffixed : ¬∀ relation ∈ suffixed.relationList,
      RelationKey.Writable relation.triple.type := by decide +kernel
  obtain ⟨hiff, hmarked⟩ := toGraph_ofGraph_iff_tellable htangle.toWellFormed
  refine ⟨hiff.mpr htangle, hmarked htangle, fun h => hsuffixed fun relation hr => ?_⟩
  have htold := (toGraph_ofGraph_iff_tellable (Graph.wellFormed_ofStatements _ _)).1.mp h
  exact htold.type_writable _ _ (htold.mem_relationList.mp hr)

end KnowledgeGraph.Outline
