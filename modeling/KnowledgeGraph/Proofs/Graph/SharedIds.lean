import KnowledgeGraph.Proofs.Graph.Deduplication

/-!
# Triples with one id

The id of a triple is its parts with a hyphen and an arrow between them, and the parts may have hyphens and
arrows of their own. So one id can be cut into several triples. Main statement: where relations are added by
their triples, a triple between concepts of the graph is added unless it is said already, or another triple
is said whose id is cut in another place; then it is refused.
-/

namespace KnowledgeGraph

/-- A longer front has a hyphen behind the shorter one, unless the two are the same. -/
theorem append_hyphen_of_prefix {front back front' back' : String} {rest : List Char}
    (hf : front'.toList = front.toList ++ rest)
    (hb : '-' :: back.toList = rest ++ '-' :: back'.toList) :
    front = front' ∧ back = back' ∨
      ∃ between, front' = front ++ "-" ++ between ∧ back = between ++ "-" ++ back' := by
  cases rest with
  | nil =>
    rw [List.append_nil] at hf
    exact .inl ⟨(String.toList_injective hf).symm, String.toList_injective (List.cons.inj hb).2⟩
  | cons c rest =>
    obtain ⟨rfl, hb⟩ := List.cons.inj hb
    refine .inr ⟨String.ofList rest, String.toList_injective ?_, String.toList_injective ?_⟩
    · simp [hf]
    · simpa using hb

/-- Two cuts of a text at a hyphen are the same, or one comes before the other. -/
theorem append_hyphen_eq {front back front' back' : String}
    (h : front ++ "-" ++ back = front' ++ "-" ++ back') :
    front = front' ∧ back = back' ∨
      (∃ between, front' = front ++ "-" ++ between ∧ back = between ++ "-" ++ back') ∨
      ∃ between, front = front' ++ "-" ++ between ∧ back' = between ++ "-" ++ back := by
  have hlists : front.toList ++ '-' :: back.toList = front'.toList ++ '-' :: back'.toList := by
    simpa using congrArg String.toList h
  rcases List.append_eq_append_iff.mp hlists with ⟨rest, hf, hb⟩ | ⟨rest, hf, hb⟩
  · rcases append_hyphen_of_prefix hf hb with same | hlonger
    · exact .inl same
    · exact .inr (.inl hlonger)
  · rcases append_hyphen_of_prefix hf hb with ⟨rfl, rfl⟩ | hlonger
    · exact .inl ⟨rfl, rfl⟩
    · exact .inr (.inr hlonger)

/-- A cut at an arrow is one at its hyphen. -/
theorem append_arrow (front back : String) : front ++ "->" ++ back = front ++ "-" ++ (">" ++ back) := by
  rw [← String.toList_inj]
  simp

/-- A hyphen behind the point of an arrow leaves the point in front. -/
theorem point_append_eq {back front back' : String} (h : ">" ++ back = front ++ "-" ++ back') :
    ∃ between, front = ">" ++ between ∧ back = between ++ "-" ++ back' := by
  have hlists : '>' :: back.toList = front.toList ++ '-' :: back'.toList := by
    simpa using congrArg String.toList h
  rcases List.cons_eq_append_iff.mp hlists with ⟨-, hback⟩ | ⟨rest, hfront, hback⟩
  · exact absurd (List.cons.inj hback).1 (by decide)
  · refine ⟨String.ofList rest, String.toList_injective ?_, String.toList_injective ?_⟩
    · simpa using hfront
    · simpa using hback

/-- A cut of a text at an arrow and one at a hyphen are at the same hyphen, or one comes before the
other. -/
theorem append_arrow_eq_append_hyphen {front back front' back' : String}
    (h : front ++ "->" ++ back = front' ++ "-" ++ back') :
    front = front' ∧ ">" ++ back = back' ∨
      (∃ between, front' = front ++ "->" ++ between ∧ back = between ++ "-" ++ back') ∨
      ∃ between, front = front' ++ "-" ++ between ∧ back' = between ++ "->" ++ back := by
  rw [append_arrow] at h
  rcases append_hyphen_eq h with same | ⟨between, hf, hb⟩ | ⟨between, hf, hb⟩
  · exact .inl same
  · obtain ⟨more, rfl, hmore⟩ := point_append_eq hb
    exact .inr (.inl ⟨more, by rw [hf, append_arrow], hmore⟩)
  · exact .inr (.inr ⟨between, hf, by rw [hb, append_arrow]⟩)

/-- Two cuts of a text at an arrow are the same, or one comes before the other. -/
theorem append_arrow_eq {front back front' back' : String}
    (h : front ++ "->" ++ back = front' ++ "->" ++ back') :
    front = front' ∧ back = back' ∨
      (∃ between, front' = front ++ "->" ++ between ∧ back = between ++ "->" ++ back') ∨
      ∃ between, front = front' ++ "->" ++ between ∧ back' = between ++ "->" ++ back := by
  rw [append_arrow front'] at h
  rcases append_arrow_eq_append_hyphen h with ⟨hf, hb⟩ | ⟨between, hf, hb⟩ | ⟨between, hf, hb⟩
  · exact .inl ⟨hf, (String.append_right_inj _).mp hb⟩
  · exact .inr (.inl ⟨between, hf, by rw [hb, append_arrow]⟩)
  · rw [append_arrow] at hb
    obtain ⟨more, rfl, hmore⟩ := point_append_eq hb
    exact .inr (.inr ⟨more, by rw [hf, append_arrow], by rw [hmore, append_arrow]⟩)

namespace Triple

/-- The id of a triple is cut into another triple whose source or else whose type is longer. -/
inductive Recut : Triple → Triple → Prop where
  /-- The type goes on over an arrow in the target. -/
  | type (source type between target : String) :
    Recut ⟨source, type, between ++ "->" ++ target⟩ ⟨source, type ++ "->" ++ between, target⟩
  /-- The source goes on over a hyphen in the type. -/
  | source (source between type target : String) :
    Recut ⟨source, between ++ "-" ++ type, target⟩ ⟨source ++ "-" ++ between, type, target⟩
  /-- The source goes on over a hyphen in the type and the type over an arrow in the target. -/
  | both (source between type more target : String) :
    Recut ⟨source, between ++ "-" ++ type, more ++ "->" ++ target⟩
      ⟨source ++ "-" ++ between, type ++ "->" ++ more, target⟩
  /-- The source goes on over a hyphen in the type, and the type ends at an arrow in it. -/
  | within (source between type more target : String) :
    Recut ⟨source, between ++ "-" ++ type ++ "->" ++ more, target⟩
      ⟨source ++ "-" ++ between, type, more ++ "->" ++ target⟩
  /-- The source goes on over the type and ends at the hyphen of the arrow. -/
  | arrow (source type between target : String) :
    Recut ⟨source, type, between ++ "->" ++ target⟩
      ⟨source ++ "-" ++ type, ">" ++ between, target⟩
  /-- The source goes on over the type and the arrow. -/
  | beyond (source type between other target : String) :
    Recut ⟨source, type, between ++ "-" ++ other ++ "->" ++ target⟩
      ⟨source ++ "-" ++ type ++ "->" ++ between, other, target⟩

/-- Two triples clash when the id of one is cut into the other. -/
def Clash (first second : Triple) : Prop := first.Recut second ∨ second.Recut first

variable {first second : Triple}

/-- What is cut in another place stays the same text. -/
theorem Recut.id_eq (h : first.Recut second) : first.id = second.id := by
  cases h <;> simp [id, ← String.toList_inj]

/-- What is cut in another place is another triple. -/
theorem Recut.ne (h : first.Recut second) : first ≠ second := by
  intro same
  have hsource := congrArg (fun triple => triple.source.toList.length) same
  have htype := congrArg (fun triple => triple.type.toList.length) same
  cases h <;> simp at hsource htype

/-- When the source of a triple goes on over a hyphen in the rest of the id of another triple, the two are
cut in different places. -/
theorem recut_of_append {source type target between type' target' : String}
    (h : type ++ "->" ++ target = between ++ "-" ++ (type' ++ "->" ++ target')) :
    Recut ⟨source, type, target⟩ ⟨source ++ "-" ++ between, type', target'⟩ := by
  rcases append_arrow_eq_append_hyphen h with ⟨rfl, hpoint⟩ | ⟨more, rfl, rfl⟩ | ⟨rest, rfl, hrest⟩
  · rw [append_arrow] at hpoint
    obtain ⟨more, rfl, rfl⟩ := point_append_eq hpoint
    rw [← append_arrow]
    exact .arrow source type more target'
  · have hfront : source ++ "-" ++ (type ++ "->" ++ more) = source ++ "-" ++ type ++ "->" ++ more := by
      simp only [String.append_assoc]
    have hback : more ++ "-" ++ (type' ++ "->" ++ target') = more ++ "-" ++ type' ++ "->" ++ target' := by
      simp only [String.append_assoc]
    rw [hfront, hback]
    exact .beyond source type more type' target'
  · rcases append_arrow_eq hrest with ⟨rfl, rfl⟩ | ⟨more, rfl, rfl⟩ | ⟨more, rfl, rfl⟩
    · exact .source source between type' target'
    · have hinner : between ++ "-" ++ (type' ++ "->" ++ more) = between ++ "-" ++ type' ++ "->" ++ more := by
        simp only [String.append_assoc]
      rw [hinner]
      exact .within source between type' more target
    · exact .both source between rest more target'

/-- Different triples have one id just when they clash. -/
theorem clash_iff : first.Clash second ↔ first ≠ second ∧ first.id = second.id := by
  constructor
  · rintro (h | h)
    · exact ⟨h.ne, h.id_eq⟩
    · exact ⟨h.ne.symm, h.id_eq.symm⟩
  · rintro ⟨hne, same⟩
    obtain ⟨source, type, target⟩ := first
    obtain ⟨source', type', target'⟩ := second
    have hcut : source ++ "-" ++ (type ++ "->" ++ target) =
        source' ++ "-" ++ (type' ++ "->" ++ target') := by
      simpa only [id, String.append_assoc] using same
    rcases append_hyphen_eq hcut with ⟨rfl, hrest⟩ | ⟨between, rfl, hrest⟩ | ⟨between, rfl, hrest⟩
    · rcases append_arrow_eq hrest with ⟨rfl, rfl⟩ | ⟨more, rfl, rfl⟩ | ⟨more, rfl, rfl⟩
      · exact absurd rfl hne
      · exact .inl (.type source type more target')
      · exact .inr (.type source type' more target)
    · exact .inl (recut_of_append hrest)
    · exact .inr (recut_of_append hrest)

instance : Decidable (first.Clash second) := decidable_of_iff _ clash_iff.symm

/-- A triple is plain when neither its source nor its type has a hyphen. -/
structure Plain (triple : Triple) : Prop where
  /-- The source has no hyphen. -/
  source_plain : '-' ∉ triple.source.toList
  /-- The type has no hyphen. -/
  type_plain : '-' ∉ triple.type.toList

/-- A triple that the id of another one is cut into is not plain. -/
theorem Recut.not_plain (h : first.Recut second) : ¬second.Plain := by
  rintro ⟨hsource, htype⟩
  cases h <;> simp at hsource htype

/-- Plain triples do not clash. -/
theorem Plain.not_clash (hf : first.Plain) (hs : second.Plain) : ¬first.Clash second := by
  rintro (h | h)
  · exact h.not_plain hs
  · exact h.not_plain hf

end Triple

namespace Graph

variable {g : Graph} {triple other : Triple}

/-- In a graph whose relations stand under the ids of their triples a triple is said just by what stands
under its id. -/
theorem StandsByTriple.says_iff_get? (h : g.StandsByTriple) :
    g.Says triple ↔
      ∃ relation, g.relations.get? triple.id = some relation ∧ relation.triple = triple := by
  rw [says_iff]
  constructor
  · rintro ⟨id, relation, hg, rfl⟩
    exact ⟨relation, by rwa [h id relation hg], rfl⟩
  · rintro ⟨relation, hg, htriple⟩
    exact ⟨triple.id, relation, hg, htriple⟩

/-- A triple that is not said has a free id when none that is said clashes with it. -/
theorem StandsByTriple.get?_eq_none (h : g.StandsByTriple) (hn : ¬g.Says triple)
    (hc : ∀ other, g.Says other → ¬other.Clash triple) : g.relations.get? triple.id = none := by
  cases hg : g.relations.get? triple.id with
  | none => rfl
  | some stored =>
    have hid := h triple.id stored hg
    have hsaid : g.Says stored.triple := says_iff.mpr ⟨triple.id, stored, hg, rfl⟩
    have hne : stored.triple ≠ triple := fun same => hn (same ▸ hsaid)
    exact absurd (Triple.clash_iff.mpr ⟨hne, hid⟩) (hc _ hsaid)

/-- A triple that clashes with one that is said is not said itself. -/
theorem StandsByTriple.not_says_of_clash (h : g.StandsByTriple) (ho : g.Says other)
    (hc : other.Clash triple) : ¬g.Says triple := by
  obtain ⟨hne, hid⟩ := Triple.clash_iff.mp hc
  intro hsaid
  obtain ⟨stored, hg, hstored⟩ := h.says_iff_get?.mp ho
  obtain ⟨stored', hg', hstored'⟩ := h.says_iff_get?.mp hsaid
  rw [hid, hg', Option.some.injEq] at hg
  exact hne (by rw [← hstored, ← hstored', hg])

/-- A triple between concepts of the graph that is not said is added if its id is free, and else refused. -/
theorem WellFormed.addTripleIfAbsent_of_not_says (h : g.WellFormed)
    (hs : g.hasConcept triple.source = true) (ht : g.hasConcept triple.target = true)
    (hn : ¬g.Says triple) :
    g.addTripleIfAbsent triple = match g.relations.get? triple.id with
      | none => .ok (true, g.putRelation (.ofTriple triple))
      | some _ => .error (.duplicateRelation triple.id) := by
  have hadd := @addRelation_of_ends g (.ofTriple triple) hs ht
  change g.addRelation (.ofTriple triple) = match g.relations.get? triple.id with
    | none => _
    | some existing => if existing.triple = triple then _ else .error (.duplicateRelation triple.id) at hadd
  rw [addTripleIfAbsent_of_ends hs ht, if_neg (mt h.hasTriple_iff.mp hn), hadd]
  cases hg : g.relations.get? triple.id with
  | none => rfl
  | some existing =>
    have hne : existing.triple ≠ triple := fun same => hn (says_iff.mpr ⟨triple.id, existing, hg, same⟩)
    simp only [if_neg hne]
    rfl

/-- A triple between concepts of the graph that is neither said nor clashes with one that is said is
added. -/
theorem StandsByTriple.addTripleIfAbsent_of_free (h : g.StandsByTriple) (hw : g.WellFormed)
    (hs : g.hasConcept triple.source = true) (ht : g.hasConcept triple.target = true)
    (hn : ¬g.Says triple) (hc : ∀ other, g.Says other → ¬other.Clash triple) :
    g.addTripleIfAbsent triple = .ok (true, g.putRelation (.ofTriple triple)) := by
  rw [hw.addTripleIfAbsent_of_not_says hs ht hn, h.get?_eq_none hn hc]

/-- A triple between concepts of the graph that clashes with one that is said is refused. -/
theorem StandsByTriple.addTripleIfAbsent_of_clash (h : g.StandsByTriple) (hw : g.WellFormed)
    (hs : g.hasConcept triple.source = true) (ht : g.hasConcept triple.target = true)
    (ho : g.Says other) (hc : other.Clash triple) :
    g.addTripleIfAbsent triple = .error (.duplicateRelation triple.id) := by
  obtain ⟨stored, hg, -⟩ := h.says_iff_get?.mp ho
  rw [(Triple.clash_iff.mp hc).2] at hg
  rw [hw.addTripleIfAbsent_of_not_says hs ht (h.not_says_of_clash ho hc), hg]

/-- Where the triples that are said are plain, a plain triple between concepts of the graph is said or
added. -/
theorem StandsByTriple.exists_addTripleIfAbsent (h : g.StandsByTriple) (hw : g.WellFormed)
    (hplain : ∀ other, g.Says other → other.Plain) (hs : g.hasConcept triple.source = true)
    (ht : g.hasConcept triple.target = true) (hp : triple.Plain) :
    ∃ result, g.addTripleIfAbsent triple = .ok result := by
  by_cases hsaid : g.Says triple
  · rw [addTripleIfAbsent_of_ends hs ht, if_pos (hw.hasTriple_iff.mpr hsaid)]
    exact ⟨_, rfl⟩
  · exact ⟨_, h.addTripleIfAbsent_of_free hw hs ht hsaid fun other ho => (hplain other ho).not_clash hp⟩

/-- After a run that adds relations by their triples at most, a triple between concepts of the graph is left
as it is if it is said, and is added if neither it nor one that clashes with it is said. If one that clashes
with it is said it is refused, since its id is taken: different triples have one id just when they clash.
Among triples whose sources and types have no hyphen none is refused. -/
theorem addTripleIfAbsent_of_run {operations : List Operation}
    (ho : ∀ operation ∈ operations, operation.addsByTriple = true)
    (hg : empty.performAll operations = g) (hs : g.hasConcept triple.source = true)
    (ht : g.hasConcept triple.target = true) :
    (g.Says triple → g.addTripleIfAbsent triple = .ok (false, g)) ∧
    (¬g.Says triple → (∀ other, g.Says other → ¬other.Clash triple) →
      g.addTripleIfAbsent triple = .ok (true, g.putRelation (.ofTriple triple))) ∧
    (∀ other, g.Says other → other.Clash triple →
      g.addTripleIfAbsent triple = .error (.duplicateRelation triple.id)) ∧
    (∀ first second : Triple, first.Clash second ↔ first ≠ second ∧ first.id = second.id) ∧
    ((∀ other, g.Says other → other.Plain) → triple.Plain →
      ∃ result, g.addTripleIfAbsent triple = .ok result) := by
  subst hg
  have hw := wellFormed_empty.performAll operations
  have h := StandsByTriple.empty.performAll wellFormed_empty ho
  refine ⟨fun hsaid => ?_, fun hn hc => h.addTripleIfAbsent_of_free hw hs ht hn hc,
    fun other hother hc => h.addTripleIfAbsent_of_clash hw hs ht hother hc, fun _ _ => Triple.clash_iff,
    fun hplain hp => h.exists_addTripleIfAbsent hw hplain hs ht hp⟩
  rw [addTripleIfAbsent_of_ends hs ht, if_pos (hw.hasTriple_iff.mpr hsaid)]

/-- Ann has a mother and a mother-in-law, and the mother is somebody's in-law. -/
def inLaws : List Operation :=
  [.addConcept (.known "ann"), .addConcept (.known "mother"), .addConcept (.known "mother-in-law"),
    .addTripleIfAbsent ⟨"mother", "in-law-of", "ann"⟩]

/-- That the mother is Ann's in-law is there already, and that the mother-in-law likes Ann is added; that
she is of Ann is not, since its id is taken. -/
theorem addTripleIfAbsent_of_run_of_inLaws : ∃ g, empty.performAll inLaws = g ∧
    (∀ operation ∈ inLaws, operation.addsByTriple = true) ∧
    g.hasConcept "mother" = true ∧ g.hasConcept "mother-in-law" = true ∧ g.hasConcept "ann" = true ∧
    g.addTripleIfAbsent ⟨"mother", "in-law-of", "ann"⟩ = .ok (false, g) ∧
    g.addTripleIfAbsent ⟨"mother-in-law", "likes", "ann"⟩ =
      .ok (true, g.putRelation (.ofTriple ⟨"mother-in-law", "likes", "ann"⟩)) ∧
    g.addTripleIfAbsent ⟨"mother-in-law", "of", "ann"⟩ =
      .error (.duplicateRelation "mother-in-law-of->ann") := by
  have ho : ∀ operation ∈ inLaws, operation.addsByTriple = true := by decide
  have hmother : (empty.performAll inLaws).hasConcept "mother" = true := by decide +kernel
  have hinLaw : (empty.performAll inLaws).hasConcept "mother-in-law" = true := by decide +kernel
  have hann : (empty.performAll inLaws).hasConcept "ann" = true := by decide +kernel
  have hsaid : (empty.performAll inLaws).Says ⟨"mother", "in-law-of", "ann"⟩ := by decide +kernel
  have hfree : ∀ relation ∈ (empty.performAll inLaws).relationList,
      ¬relation.triple.Clash ⟨"mother-in-law", "likes", "ann"⟩ := by decide +kernel
  refine ⟨_, rfl, ho, hmother, hinLaw, hann, ?_, ?_, ?_⟩
  · exact (addTripleIfAbsent_of_run ho rfl hmother hann).1 hsaid
  · refine (addTripleIfAbsent_of_run ho rfl hinLaw hann).2.1 (by decide +kernel) ?_
    rintro other ⟨relation, hr, rfl⟩
    exact hfree relation hr
  · exact (addTripleIfAbsent_of_run ho rfl hinLaw hann).2.2.1 _ hsaid (by decide +kernel)

/-- Though only concepts and triples were added, and though ids and types can be written in text, that the
mother-in-law is of Ann cannot be added to what is said of her mother: both have one id. -/
theorem not_addTripleIfAbsent_of_inLaws :
    (empty.performAll inLaws).hasConcept "mother-in-law" = true ∧
    (empty.performAll inLaws).hasConcept "ann" = true ∧
    ¬(empty.performAll inLaws).Says ⟨"mother-in-law", "of", "ann"⟩ ∧
    (∀ result,
      (empty.performAll inLaws).addTripleIfAbsent ⟨"mother-in-law", "of", "ann"⟩ ≠ .ok result) ∧
    (∀ id ∈ ["mother", "mother-in-law", "ann"], Concept.Readable id) ∧
    (∀ type ∈ ["in-law-of", "of"], RelationKey.Writable type) ∧
    (⟨"mother", "in-law-of", "ann"⟩ : Triple).id = Triple.id ⟨"mother-in-law", "of", "ann"⟩ := by
  have hrefused : (empty.performAll inLaws).addTripleIfAbsent ⟨"mother-in-law", "of", "ann"⟩ =
      .error (.duplicateRelation "mother-in-law-of->ann") := by
    decide +kernel
  refine ⟨by decide +kernel, by decide +kernel, by decide +kernel, fun result hresult => ?_,
    by decide +kernel, by decide +kernel, by decide +kernel⟩
  rw [hrefused] at hresult
  cases hresult

end Graph

end KnowledgeGraph
