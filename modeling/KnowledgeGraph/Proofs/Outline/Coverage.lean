import KnowledgeGraph.Proofs.Graph.Paths
import KnowledgeGraph.Proofs.Outline.Traversal

/-!
# Writing leaves nothing out

The walk that writes a graph meets every concept. Between two moments of it each concept that is newly met
is reached from one at which the walk starts and is mentioned, and every relation that leaves it is stated
and leads to a concept that is met, although it is a bare reference wherever it is met again. Each level
meets a new concept, so as many levels as there are concepts left are enough.
-/

namespace KnowledgeGraph.Outline

variable {g : Graph} {markFanOut : Bool} {id : String}

/-- A graph can be told by an outline when references and triples say everything of it, its ids can be
read and its types can be written. -/
structure Tellable (g : Graph) : Prop extends Graph.NotationShaped g where
  /-- The ids can be read as references. -/
  id_readable : ∀ id, g.hasConcept id = true → Concept.Readable id
  /-- The types can be written in keys. -/
  type_writable : ∀ id relation, g.relations.get? id = some relation →
    RelationKey.Writable relation.triple.type

/-- A graph can be told apart from its outline when its concepts have references of their own and its types
have keys of their own. -/
structure TellsApart (g : Graph) (markFanOut : Bool) : Prop extends Graph.WellFormed g where
  /-- Concepts with one reference are the same. -/
  eq_of_reference : ∀ id other, g.hasConcept id = true → g.hasConcept other = true →
    referenceTo g id = referenceTo g other → id = other
  /-- Types with one key are the same. -/
  eq_of_key : ∀ relation ∈ g.relationList, ∀ other ∈ g.relationList, ∀ toAll toAll',
    (toAll = true → markFanOut = true) → (toAll' = true → markFanOut = true) →
      RelationKey.text ⟨.forward, relation.triple.type, toAll⟩ =
        RelationKey.text ⟨.forward, other.triple.type, toAll'⟩ →
      relation.triple.type = other.triple.type

namespace Tellable

/-- Whether a graph of the shape of notation can be told is seen from its lists. -/
theorem of_lists (h : g.NotationShaped) (hids : ∀ id ∈ g.concepts.keys, Concept.Readable id)
    (htypes : ∀ relation ∈ g.relationList, RelationKey.Writable relation.triple.type) :
    Tellable g where
  toNotationShaped := h
  id_readable id hid := hids id (Dict.mem_keys.mpr hid)
  type_writable id relation hg := htypes relation (Dict.mem_values.mpr ⟨id, hg⟩)

/-- A concept is referred to by its id. -/
theorem reference_eq (h : Tellable g) {concept : Concept} (hc : concept ∈ g.conceptList) :
    concept.reference = concept.id := by
  rw [(h.toNotationShaped.mem_conceptList.mp hc).2, Concept.reference, Concept.ofReference_isUnknown,
    Concept.ofReference_id]
  cases Concept.isMarked concept.id <;> rfl

/-- Every id of a concept is its own reference. -/
theorem referenceTo_eq (h : Tellable g) (hc : g.hasConcept id = true) : referenceTo g id = id := by
  have hmem : Concept.ofReference id ∈ g.conceptList :=
    Dict.mem_values.mpr ⟨id, h.get?_concept hc⟩
  have hreference := Outline.referenceTo_eq h.toWellFormed hmem
  rw [h.reference_eq hmem, Concept.ofReference_id] at hreference
  exact hreference

/-- Ids that are references and types that can be written are told apart, also where keys are marked. -/
theorem tellsApart (h : Tellable g) (markFanOut : Bool) : TellsApart g markFanOut where
  toWellFormed := h.toWellFormed
  eq_of_reference := by
    intro id other hid hother same
    rwa [h.referenceTo_eq hid, h.referenceTo_eq hother] at same
  eq_of_key := by
    intro relation hr other ho toAll toAll' _ _ same
    exact RelationKey.eq_of_text_forward (h.type_writable _ _ (h.mem_relationList.mp hr))
      (h.type_writable _ _ (h.mem_relationList.mp ho)) same

end Tellable

/-- Concepts with references of their own are the same when they are referred to alike. -/
theorem eq_of_referenceTo (hw : g.WellFormed)
    (hr : ∀ first ∈ g.conceptList, ∀ second ∈ g.conceptList,
      first.reference = second.reference → first = second) {other : String}
    (hid : g.hasConcept id = true) (hother : g.hasConcept other = true)
    (same : referenceTo g id = referenceTo g other) : id = other := by
  obtain ⟨first, hf, rfl⟩ := hw.exists_mem_conceptList.mpr hid
  obtain ⟨second, hs, rfl⟩ := hw.exists_mem_conceptList.mpr hother
  rw [referenceTo_eq hw hf, referenceTo_eq hw hs] at same
  rw [hr first hf second hs same]

/-- Concepts with references of their own and types that can be written are told apart, also where keys are
marked. -/
theorem tellsApart_of_writable (hw : g.WellFormed)
    (hr : ∀ first ∈ g.conceptList, ∀ second ∈ g.conceptList,
      first.reference = second.reference → first = second)
    (ht : ∀ relation ∈ g.relationList, RelationKey.Writable relation.triple.type) (markFanOut : Bool) :
    TellsApart g markFanOut where
  toWellFormed := hw
  eq_of_reference _ _ := eq_of_referenceTo hw hr
  eq_of_key relation hr other ho _ _ _ _ :=
    RelationKey.eq_of_text_forward (ht relation hr) (ht other ho)

/-- Some step states a triple under the references of its ends. -/
def Stated (g : Graph) (steps : List Step) (triple : Triple) : Prop :=
  ∃ toAll, .state (RelationKey.text ⟨.forward, triple.type, toAll⟩) (referenceTo g triple.source)
    (referenceTo g triple.target) ∈ steps

/-- Between two moments of a walk from some concepts each concept that was newly met is reached from one of
them, past those that were met before, and mentioned, and every relation that leaves it is stated and leads
to a concept that was met. -/
structure Covers (g : Graph) (starts before after : List String) (steps : List Step) : Prop where
  /-- What was met stays met. -/
  keeps : ∀ id ∈ before, id ∈ after
  /-- Where the walk starts is met. -/
  arrives : ∀ start ∈ starts, start ∈ after
  /-- What is newly met is reached past what was met. -/
  reached : ∀ id ∈ after, id ∉ before → ∃ start ∈ starts, start ∉ before ∧ g.ReachesPast before start id
  /-- It is mentioned. -/
  mentions : ∀ id ∈ after, id ∉ before → .mention (referenceTo g id) ∈ steps
  /-- The relations that leave it lead to what is met and are stated. -/
  states : ∀ id ∈ after, id ∉ before → ∀ relation ∈ g.relationList, relation.triple.source = id →
    relation.triple.target ∈ after ∧ Stated g steps relation.triple

namespace Covers

variable {starts more before middle after : List String} {steps steps' : List Step}

/-- Staying where it is a walk that starts at what is met need not say anything. -/
theorem refl (hs : ∀ start ∈ starts, start ∈ before) (steps : List Step) :
    Covers g starts before before steps :=
  ⟨fun _ hid => hid, hs, fun _ hid hn => absurd hid hn, fun _ hid hn => absurd hid hn,
    fun _ hid hn => absurd hid hn⟩

/-- A walk that starts nowhere stays where it is. -/
theorem nil (visited : List String) (steps : List Step) : Covers g [] visited visited steps :=
  refl (fun _ hs => absurd hs List.not_mem_nil) steps

/-- More may be said. -/
theorem mono (h : Covers g starts before after steps) (hs : ∀ step ∈ steps, step ∈ steps') :
    Covers g starts before after steps' where
  keeps := h.keeps
  arrives := h.arrives
  reached := h.reached
  mentions id hid hn := hs _ (h.mentions id hid hn)
  states := by
    intro id hid hn relation hr hsource
    obtain ⟨htarget, toAll, hstep⟩ := h.states id hid hn relation hr hsource
    exact ⟨htarget, toAll, hs _ hstep⟩

/-- One walk goes on where another one ends. -/
theorem trans (hf : Covers g starts before middle steps) (hs : Covers g more middle after steps) :
    Covers g (starts ++ more) before after steps where
  keeps id hid := hs.keeps id (hf.keeps id hid)
  arrives := by
    intro start hstart
    rcases List.mem_append.mp hstart with hstart | hstart
    · exact hs.keeps start (hf.arrives start hstart)
    · exact hs.arrives start hstart
  reached := by
    intro id hid hn
    by_cases hm : id ∈ middle
    · obtain ⟨start, hstart, hnew, hreach⟩ := hf.reached id hm hn
      exact ⟨start, List.mem_append_left _ hstart, hnew, hreach⟩
    · obtain ⟨start, hstart, hnew, hreach⟩ := hs.reached id hid hm
      exact ⟨start, List.mem_append_right _ hstart, fun hb => hnew (hf.keeps start hb),
        hreach.of_subset hf.keeps⟩
  mentions := by
    intro id hid hn
    by_cases hm : id ∈ middle
    · exact hf.mentions id hm hn
    · exact hs.mentions id hid hm
  states := by
    intro id hid hn relation hr hsource
    by_cases hm : id ∈ middle
    · obtain ⟨htarget, hstated⟩ := hf.states id hm hn relation hr hsource
      exact ⟨hs.keeps _ htarget, hstated⟩
    · exact hs.states id hid hm relation hr hsource

/-- A walk that goes on from concepts that no relation leads out of ends at such concepts. -/
theorem closed (h : Covers g starts before after steps) (hb : g.Closed before) : g.Closed after := by
  rintro id hid next ⟨relation, hr, hsource, rfl⟩
  by_cases hm : id ∈ before
  · exact h.keeps _ (hb id hm _ ⟨relation, hr, hsource, rfl⟩)
  · exact (h.states id hid hm relation hr hsource).1

/-- A walk meets just what is reached from where it starts past what was met before. -/
theorem mem_iff_past (h : Covers g starts before after steps) :
    id ∈ after ↔ id ∈ before ∨ ∃ start ∈ starts, start ∉ before ∧ g.ReachesPast before start id := by
  constructor
  · intro hid
    by_cases hm : id ∈ before
    · exact .inl hm
    · exact .inr (h.reached id hid hm)
  · rintro (hid | ⟨start, hstart, hnew, hreach⟩)
    · exact h.keeps id hid
    · -- All concepts on the path are newly met, since the relations that leave a newly met one are stated.
      have hmet : id ∈ after ∧ id ∉ before := by
        induction hreach with
        | refl => exact ⟨h.arrives start hstart, hnew⟩
        | tail _ hstep ih =>
          obtain ⟨⟨relation, hr, hsource, rfl⟩, hn⟩ := hstep
          exact ⟨(h.states _ ih.1 ih.2 relation hr hsource).1, hn⟩
      exact hmet.1

/-- A walk that goes on from concepts that no relation leads out of meets just what is reached from where
it starts. -/
theorem mem_iff (h : Covers g starts before after steps) (hb : g.Closed before) :
    id ∈ after ↔ id ∈ before ∨ ∃ start ∈ starts, g.Reaches start id := by
  constructor
  · intro hid
    obtain hm | ⟨start, hstart, -, hreach⟩ := h.mem_iff_past.mp hid
    · exact .inl hm
    · exact .inr ⟨start, hstart, hreach.reaches⟩
  · rintro (hid | ⟨start, hstart, hreach⟩)
    · exact h.keeps id hid
    · exact (h.closed hb).mem_of_reaches hreach (h.arrives start hstart)

end Covers

/-- How many concepts of a graph have not been met. -/
def remaining (g : Graph) (visited : List String) : Nat :=
  (g.concepts.keys.filter fun id => id ∉ visited).length

/-- When more is met, no more remains. -/
theorem remaining_le_of_subset {before after : List String} (h : ∀ id ∈ before, id ∈ after) :
    remaining g after ≤ remaining g before := by
  refine (List.monotone_filter_right _ fun id hid => ?_).length_le
  exact decide_eq_true fun hb => of_decide_eq_true hid (h id hb)

/-- A walk leaves no more than remained before it. -/
theorem Covers.remaining_le {starts before after : List String} {steps : List Step}
    (h : Covers g starts before after steps) : remaining g after ≤ remaining g before :=
  remaining_le_of_subset h.keeps

/-- Meeting a new concept leaves fewer. -/
theorem remaining_cons_lt {visited : List String} (hc : g.hasConcept id = true)
    (hn : id ∉ visited) : remaining g (id :: visited) < remaining g visited := by
  have hsub : (g.concepts.keys.filter fun key => key ∉ id :: visited).Sublist
      (g.concepts.keys.filter fun key => key ∉ visited) := by
    refine List.monotone_filter_right _ fun key hk => ?_
    exact decide_eq_true fun hv => of_decide_eq_true hk (List.mem_cons_of_mem _ hv)
  refine Nat.lt_of_le_of_ne hsub.length_le fun hsame => ?_
  have hmem : id ∈ g.concepts.keys.filter fun key => key ∉ visited :=
    List.mem_filter.mpr ⟨Dict.mem_keys.mpr hc, decide_eq_true hn⟩
  rw [← hsub.eq_of_length hsame] at hmem
  exact of_decide_eq_true (List.mem_filter.mp hmem).2 List.mem_cons_self

/-- No more remains than there are concepts. -/
theorem remaining_le_size (g : Graph) (visited : List String) :
    remaining g visited ≤ g.concepts.size := by
  rw [← Dict.length_keys]
  exact List.length_filter_le _ _

/-- A writer covers what remains when that is no more than so many concepts. -/
def WritesAll (g : Graph) (levels : Nat)
    (write : List String → String → Dict Term × List String) : Prop :=
  ∀ visited id, g.hasConcept id = true → id ∉ visited → remaining g visited ≤ levels →
    Covers g [id] visited (write visited id).2
      (.mention (referenceTo g id) :: branchesSteps (referenceTo g id) (write visited id).1.entries)

/-- Targets are covered by what is written out below them. -/
theorem covers_writeTargets {levels : Nat} {write : List String → String → Dict Term × List String}
    (hwrite : WritesAll g levels write) {targets : List String}
    (ht : ∀ target ∈ targets, g.hasConcept target = true) {visited : List String}
    (hl : remaining g visited ≤ levels) :
    Covers g targets visited (writeTargets g write visited targets).2
      (conceptsSteps (written (writeTargets g write visited targets).1)) := by
  induction targets generalizing visited with
  | nil => exact .nil visited _
  | cons target rest ih =>
    have hhead := ht target List.mem_cons_self
    have hrest : ∀ other ∈ rest, g.hasConcept other = true :=
      fun other ho => ht other (List.mem_cons_of_mem _ ho)
    rw [writeTargets, written, List.map_cons, ← written, conceptsSteps]
    by_cases hv : visited.contains target = true
    · simp only [if_pos hv]
      rw [List.contains_iff_mem] at hv
      have hstay : Covers g [target] visited visited (conceptsSteps
          (written (writeTargets g write visited rest).1)) := .refl (List.forall_mem_singleton.mpr hv) _
      refine (hstay.trans (ih hrest hl)).mono fun step hstep => ?_
      exact List.mem_cons_of_mem _ (List.mem_append_right _ hstep)
    · simp only [if_neg hv]
      rw [List.contains_iff_mem] at hv
      have hfirst := hwrite visited target hhead hv hl
      have hfewer := hfirst.remaining_le
      have hnext := ih hrest (by omega : remaining g (write visited target).2 ≤ levels)
      refine (hfirst.mono fun step hstep => ?_).trans (hnext.mono fun step hstep => ?_)
      · exact (List.mem_cons.mp hstep).elim (fun same => same ▸ List.mem_cons_self)
          fun hm => List.mem_cons_of_mem _ (List.mem_append_left _ hm)
      · exact List.mem_cons_of_mem _ (List.mem_append_right _ hstep)

/-- Types do not change what stands under keys other than theirs. -/
theorem get?_writeTypes {write : List String → String → Dict Term × List String}
    {types : List (String × List String)} {key : String}
    (hk : ∀ entry ∈ types, ∀ toAll, (toAll = true → markFanOut = true) →
      RelationKey.text ⟨.forward, entry.1, toAll⟩ ≠ key)
    (visited : List String) (branches : Dict Term) :
    (writeTypes g markFanOut write visited branches types).1.get? key = branches.get? key := by
  induction types generalizing visited branches with
  | nil => rfl
  | cons entry rest ih =>
    obtain ⟨type, targets⟩ := entry
    have hhead := hk _ List.mem_cons_self (markFanOut && decide (1 < targets.length))
      fun hboth => (Bool.and_eq_true_iff.mp hboth).1
    rw [writeTypes, ih fun other ho => hk other (List.mem_cons_of_mem _ ho), Dict.get?_insert,
      if_neg hhead]

/-- What is put under the key of a type stays there, since no later type has the key. -/
theorem mem_writeTypes (h : TellsApart g markFanOut)
    (write : List String → String → Dict Term × List String)
    {types : List (String × List String)} {type : String} {targets : List String}
    (htypes : ∀ entry ∈ types, entry ∈ (targetsByType g id).entries)
    (hentry : (type, targets) ∈ (targetsByType g id).entries) (hn : type ∉ types.map (·.1))
    {toAll : Bool} (hmark : toAll = true → markFanOut = true) (visited : List String)
    (branches : Dict Term) (term : Term) :
    (RelationKey.text ⟨.forward, type, toAll⟩, term) ∈ (writeTypes g markFanOut write visited
      (branches.insert (RelationKey.text ⟨.forward, type, toAll⟩) term) types).1.entries := by
  rw [Dict.mem_entries, get?_writeTypes, Dict.get?_insert, if_pos rfl]
  intro other ho toAll' hmark' hsame
  obtain ⟨relation, hr, rfl⟩ := exists_relation_of_entry hentry
  obtain ⟨relation', hr', htype⟩ := exists_relation_of_entry (htypes other ho)
  rw [← htype] at hsame
  have hsame := h.eq_of_key relation' hr' relation hr toAll' toAll hmark' hmark hsame
  exact hn (List.mem_map.mpr ⟨other, ho, htype.symm.trans hsame⟩)

/-- Targets of a concept under one type are written out under references of their own. -/
theorem nodup_writeTargets (h : TellsApart g markFanOut)
    (write : List String → String → Dict Term × List String) (visited : List String)
    {entry : String × List String} (he : entry ∈ (targetsByType g id).entries) :
    ((writeTargets g write visited entry.2).1.map (·.1)).Nodup := by
  have hhas : ∀ target ∈ entry.2, g.hasConcept target = true :=
    fun target ht => hasConcept_of_mem h.toWellFormed he ht
  have htargets := ((groups_targetsByType g id).filled _ _ (Dict.mem_entries.mp he)).2
  rw [map_writeTargets]
  exact htargets.map_on fun target ht other ho same =>
    h.eq_of_reference target other (hhas target ht) (hhas other ho) same

/-- Types are covered by what is written out under them, and the triples of their targets are stated. -/
theorem covers_writeTypes {levels : Nat} {write : List String → String → Dict Term × List String}
    (h : TellsApart g markFanOut) (hwrite : WritesAll g levels write)
    {types : List (String × List String)}
    (htypes : ∀ entry ∈ types, entry ∈ (targetsByType g id).entries)
    (hn : (types.map (·.1)).Nodup) {visited : List String} (hl : remaining g visited ≤ levels)
    (branches : Dict Term) :
    Covers g (types.flatMap (·.2)) visited (writeTypes g markFanOut write visited branches types).2
        (branchesSteps (referenceTo g id)
          (writeTypes g markFanOut write visited branches types).1.entries) ∧
      ∀ entry ∈ types, ∀ target ∈ entry.2, Stated g (branchesSteps (referenceTo g id)
        (writeTypes g markFanOut write visited branches types).1.entries) ⟨id, entry.1, target⟩ := by
  induction types generalizing visited branches with
  | nil => exact ⟨.nil visited _, nofun⟩
  | cons entry rest ih =>
    obtain ⟨type, targets⟩ := entry
    rw [List.map_cons, List.nodup_cons] at hn
    have hentry := htypes _ List.mem_cons_self
    have hrest : ∀ other ∈ rest, other ∈ (targetsByType g id).entries :=
      fun other ho => htypes other (List.mem_cons_of_mem _ ho)
    have hhas : ∀ target ∈ targets, g.hasConcept target = true :=
      fun target ht => hasConcept_of_mem h.toWellFormed hentry ht
    have hmark : (markFanOut && decide (1 < targets.length)) = true → markFanOut = true :=
      fun hboth => (Bool.and_eq_true_iff.mp hboth).1
    have hfirst := covers_writeTargets hwrite hhas hl
    have hreferences := map_writeTargets (g := g) write visited targets
    have hdistinct := nodup_writeTargets h write visited hentry
    have hfewer := hfirst.remaining_le
    rw [writeTypes]
    generalize writeTargets g write visited targets = out at *
    have hthere := mem_writeTypes h write hrest hentry hn.1 hmark out.2 branches (termOf out.1)
    obtain ⟨hnext, hstates⟩ := ih hrest hn.2 (by omega : remaining g out.2 ≤ levels) (branches.insert
      (RelationKey.text ⟨.forward, type, markFanOut && decide (1 < targets.length)⟩) (termOf out.1))
    refine ⟨(hfirst.mono fun step hstep => ?_).trans hnext, ?_⟩
    · exact mem_branchesSteps.mpr ⟨_, hthere, .inr (.inl (mem_termSteps hdistinct hstep))⟩
    · intro other ho target ht
      rcases List.mem_cons.mp ho with rfl | ho
      · have htop : referenceTo g target ∈ termTops (termOf out.1) := by
          refine mem_termTops hdistinct ?_
          rw [hreferences]
          exact List.mem_map_of_mem ht
        exact ⟨_, mem_branchesSteps.mpr ⟨_, hthere, .inr (.inr ⟨_, htop, rfl⟩)⟩⟩
      · exact hstates other ho target ht

/-- A concept is covered by what is written out below it, with enough levels. -/
theorem covers_writeConcept (h : TellsApart g markFanOut) (levels : Nat) :
    WritesAll g levels (writeConcept g markFanOut levels) := by
  induction levels with
  | zero =>
    intro visited id hc hn hl
    exact absurd (remaining_cons_lt hc hn) (by omega)
  | succ levels ih =>
    intro visited id hc hn hl
    have hfewer := remaining_cons_lt hc hn
    obtain ⟨hbelow, hstates⟩ := covers_writeTypes h ih (fun entry he => he)
      (Dict.keys_nodup (targetsByType g id)) (by omega : remaining g (id :: visited) ≤ levels) .empty
    have hself := hbelow.keeps id List.mem_cons_self
    have hnew : ∀ other, other ∉ visited → other ≠ id → other ∉ id :: visited :=
      fun other hv hne hmem => (List.mem_cons.mp hmem).elim hne hv
    rw [writeConcept]
    refine ⟨fun other ho => hbelow.keeps other (List.mem_cons_of_mem _ ho),
      List.forall_mem_singleton.mpr hself, ?_, ?_, ?_⟩
    · intro other ho hv
      by_cases same : other = id
      · rw [same]
        exact ⟨id, List.mem_singleton_self id, hn, .refl⟩
      · obtain ⟨target, ht, hmore, hreach⟩ := hbelow.reached other ho (hnew other hv same)
        obtain ⟨entry, he, ht⟩ := List.mem_flatMap.mp ht
        obtain ⟨relation, hr, htriple⟩ := (mem_targetsByType he).mp ht
        have hlead : g.Leads id target :=
          ⟨relation, hr, congrArg Triple.source htriple, congrArg Triple.target htriple⟩
        have htarget : target ∉ visited := fun hmet => hmore (List.mem_cons_of_mem id hmet)
        have hpast : g.ReachesPast visited target other :=
          hreach.of_subset fun _ hmet => List.mem_cons_of_mem id hmet
        exact ⟨id, List.mem_singleton_self id, hn, .head ⟨hlead, htarget⟩ hpast⟩
    · intro other ho hv
      by_cases same : other = id
      · rw [same]
        exact List.mem_cons_self
      · exact List.mem_cons_of_mem _ (hbelow.mentions other ho (hnew other hv same))
    · intro other ho hv relation hr hsource
      by_cases same : other = id
      · subst same
        obtain ⟨targets, hentry⟩ := exists_targetsByType hr
        rw [hsource] at hentry
        have ht : relation.triple.target ∈ targets :=
          (mem_targetsByType hentry).mpr ⟨relation, hr, by rw [← hsource]⟩
        obtain ⟨toAll, hstep⟩ := hstates _ hentry relation.triple.target ht
        refine ⟨hbelow.arrives _ (List.mem_flatMap.mpr ⟨_, hentry, ht⟩), toAll, ?_⟩
        rw [hsource]
        exact List.mem_cons_of_mem _ hstep
      · obtain ⟨htarget, toAll, hstep⟩ := hbelow.states other ho (hnew other hv same) relation hr hsource
        exact ⟨htarget, toAll, List.mem_cons_of_mem _ hstep⟩

/-- The walk from a concept that was not met adds just what is reached from it, if no relation leads out of
what was met. -/
theorem mem_writeConcept (h : TellsApart g markFanOut) {visited : List String}
    (hv : g.Closed visited) (hc : g.hasConcept id = true) (hn : id ∉ visited) {other : String} :
    other ∈ (writeConcept g markFanOut g.concepts.size visited id).2 ↔
      other ∈ visited ∨ g.Reaches id other := by
  have hcovers := covers_writeConcept h g.concepts.size visited id hc hn (remaining_le_size g visited)
  rw [hcovers.mem_iff hv]
  simp only [List.mem_singleton, exists_eq_left]

/-- The top level does not change what stands under ids that were met before. -/
theorem get?_writeTops (h : TellsApart g markFanOut) {concepts : List Concept}
    (hc : ∀ concept ∈ concepts, concept ∈ g.conceptList) {visited : List String}
    (hg : g.hasConcept id = true) (hid : id ∈ visited) (outline : Dict Branches) :
    (writeTops g markFanOut visited outline concepts).get? (referenceTo g id) =
      outline.get? (referenceTo g id) := by
  induction concepts generalizing visited outline with
  | nil => rfl
  | cons concept rest ih =>
    have hconcept := hc concept List.mem_cons_self
    have hrest : ∀ other ∈ rest, other ∈ g.conceptList :=
      fun other ho => hc other (List.mem_cons_of_mem _ ho)
    have hhas : g.hasConcept concept.id = true :=
      Dict.contains_of_get? (h.mem_conceptList.mp hconcept)
    rw [writeTops]
    by_cases hv : visited.contains concept.id = true
    · rw [if_pos hv]
      exact ih hrest hid outline
    · rw [if_neg hv]
      rw [List.contains_iff_mem] at hv
      have hfirst := covers_writeConcept h g.concepts.size visited concept.id hhas hv
        (remaining_le_size g visited)
      have hother : concept.reference ≠ referenceTo g id := by
        rw [← referenceTo_eq h.toWellFormed hconcept]
        exact fun same => hv (h.eq_of_reference _ _ hhas hg same ▸ hid)
      rw [ih hrest (hfirst.keeps id hid), Dict.get?_insert, if_neg hother]

/-- Concepts are covered by what is written out at the top. -/
theorem covers_writeTops (h : TellsApart g markFanOut) {concepts : List Concept}
    (hc : ∀ concept ∈ concepts, concept ∈ g.conceptList) (visited : List String)
    (outline : Dict Branches) :
    ∃ after, Covers g (concepts.map (·.id)) visited after
        (conceptsSteps (writeTops g markFanOut visited outline concepts).entries) := by
  induction concepts generalizing visited outline with
  | nil => exact ⟨visited, .nil visited _⟩
  | cons concept rest ih =>
    have hconcept := hc concept List.mem_cons_self
    have hrest : ∀ other ∈ rest, other ∈ g.conceptList :=
      fun other ho => hc other (List.mem_cons_of_mem _ ho)
    have hhas : g.hasConcept concept.id = true :=
      Dict.contains_of_get? (h.mem_conceptList.mp hconcept)
    rw [writeTops]
    by_cases hv : visited.contains concept.id = true
    · rw [if_pos hv]
      rw [List.contains_iff_mem] at hv
      obtain ⟨after, hcovers⟩ := ih hrest visited outline
      have hstay : Covers g [concept.id] visited visited (conceptsSteps
          (writeTops g markFanOut visited outline rest).entries) :=
        .refl (List.forall_mem_singleton.mpr hv) _
      exact ⟨after, hstay.trans hcovers⟩
    · rw [if_neg hv]
      rw [List.contains_iff_mem] at hv
      have hfirst := covers_writeConcept h g.concepts.size visited concept.id hhas hv
        (remaining_le_size g visited)
      have hhead := hfirst.arrives concept.id List.mem_cons_self
      generalize writeConcept g markFanOut g.concepts.size visited concept.id = out at *
      obtain ⟨after, hcovers⟩ := ih hrest out.2 (outline.insert concept.reference out.1.entries)
      have hthere : (referenceTo g concept.id, out.1.entries) ∈ (writeTops g markFanOut out.2
          (outline.insert concept.reference out.1.entries) rest).entries := by
        rw [Dict.mem_entries, get?_writeTops h hrest hhas hhead, referenceTo_eq h.toWellFormed hconcept,
          Dict.get?_insert, if_pos rfl]
      refine ⟨after, (hfirst.mono fun step hstep => ?_).trans hcovers⟩
      exact mem_conceptsSteps.mpr ⟨_, hthere, List.mem_cons.mp hstep⟩

/-- The outline of a graph mentions every concept and states every relation. -/
theorem covers_ofGraph (h : TellsApart g markFanOut) :
    (∀ id, g.hasConcept id = true →
      .mention (referenceTo g id) ∈ conceptsSteps (ofGraph g markFanOut)) ∧
    ∀ relation ∈ g.relationList, Stated g (conceptsSteps (ofGraph g markFanOut)) relation.triple := by
  obtain ⟨after, hcovers⟩ := covers_writeTops h (fun concept hc => mem_topOrder.mp hc) [] .empty
  have hall : ∀ id, g.hasConcept id = true → id ∈ after := by
    intro id hid
    obtain ⟨concept, hc, rfl⟩ := h.exists_mem_conceptList.mpr hid
    exact hcovers.arrives _ (List.mem_map_of_mem (mem_topOrder.mpr hc))
  refine ⟨fun id hid => ?_, fun relation hr => ?_⟩
  · exact hcovers.mentions id (hall id hid) List.not_mem_nil
  · have hsource := h.source_mem _ _ (h.mem_relationList.mp hr)
    exact (hcovers.states _ (hall _ hsource) List.not_mem_nil relation hr rfl).2

end KnowledgeGraph.Outline
