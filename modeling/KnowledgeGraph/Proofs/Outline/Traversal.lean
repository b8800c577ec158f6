import KnowledgeGraph.Outline.Writing
import KnowledgeGraph.Proofs.Outline.Denotation

/-!
# What writing a graph says

Whatever the graph, its outline says nothing that is not in it: it refers to concepts of the graph and
states relations of it. The targets of a concept are grouped by type, and the targets under one type say
what is written out below each of them. A walk that starts in a part of the graph that no relation leads out
of says nothing that is not in the part.
-/

namespace KnowledgeGraph.Outline

variable {g kept : Graph} {markFanOut : Bool} {id : String}

/-- What concepts say is what each of them says. -/
theorem mem_conceptsSteps {step : Step} {concepts : List (String × Branches)} :
    step ∈ conceptsSteps concepts ↔ ∃ concept ∈ concepts,
      step = .mention concept.1 ∨ step ∈ branchesSteps concept.1 concept.2 := by
  induction concepts with
  | nil => simp [conceptsSteps]
  | cons concept rest ih =>
    obtain ⟨reference, branches⟩ := concept
    rw [conceptsSteps, List.mem_cons, List.mem_append, ih, List.exists_mem_cons_iff, or_assoc]

/-- What stands under relation keys says is what each of them says. -/
theorem mem_branchesSteps {step : Step} {above : String} {branches : Branches} :
    step ∈ branchesSteps above branches ↔ ∃ branch ∈ branches, step = .key branch.1 ∨
      step ∈ termSteps branch.2 ∨ ∃ below ∈ termTops branch.2, step = .state branch.1 above below := by
  induction branches with
  | nil => simp [branchesSteps]
  | cons branch rest ih =>
    obtain ⟨text, term⟩ := branch
    rw [branchesSteps, List.mem_cons, List.mem_append, List.mem_append, ih, List.exists_mem_cons_iff,
      List.mem_map, or_assoc, or_assoc]
    simp only [eq_comm]

/-- Targets with what is written out below each of them. -/
def written (targets : List (String × Dict Term)) : List (String × Branches) :=
  targets.map fun target => (target.1, target.2.entries)

/-- The references of targets are those of what is written out. -/
theorem map_written (targets : List (String × Dict Term)) :
    (written targets).map (·.1) = targets.map (·.1) := by
  rw [written, List.map_map]
  rfl

/-- The term of targets has some of what is written out. -/
theorem termOf_cases (targets : List (String × Dict Term)) :
    (∃ reference, targets = [(reference, .empty)] ∧ termOf targets = .reference reference) ∨
      ∃ concepts, termOf targets = .nested concepts ∧
        (∀ concept ∈ concepts, concept ∈ written targets) ∧
        ((targets.map (·.1)).Nodup → concepts.Perm (written targets)) := by
  have hofList : ∃ concepts, Term.nested (Dict.ofList (written targets)).entries = .nested concepts ∧
      (∀ concept ∈ concepts, concept ∈ written targets) ∧
      ((targets.map (·.1)).Nodup → concepts.Perm (written targets)) := by
    refine ⟨_, rfl, fun concept hc => Dict.mem_of_mem_ofList hc, fun hn => ?_⟩
    rw [← map_written] at hn
    exact Dict.entries_ofList_perm hn
  match targets, hofList with
  | [], hofList => exact .inr hofList
  | [(reference, branches)], _ =>
    have hterm : termOf [(reference, branches)] = if branches.isEmpty then .reference reference
        else .nested [(reference, branches.entries)] := rfl
    rw [hterm]
    by_cases hempty : branches.isEmpty = true
    · have hb : branches = .empty := Dict.eq_of_entries (List.isEmpty_iff.mp hempty)
      rw [if_pos hempty, hb]
      exact .inl ⟨reference, rfl, rfl⟩
    · rw [if_neg hempty]
      exact .inr ⟨_, rfl, fun _ hc => hc, fun _ => .refl _⟩
  | _ :: _ :: _, hofList => exact .inr hofList

/-- The top concepts of a term of targets are targets. -/
theorem mem_of_mem_termTops {targets : List (String × Dict Term)} {reference : String}
    (h : reference ∈ termTops (termOf targets)) : reference ∈ targets.map (·.1) := by
  rcases termOf_cases targets with ⟨only, ht, hterm⟩ | ⟨concepts, hterm, hsub, -⟩
  · rw [hterm, termTops] at h
    rw [ht]
    exact h
  · rw [hterm, termTops] at h
    obtain ⟨concept, hc, rfl⟩ := List.mem_map.mp h
    rw [← map_written]
    exact List.mem_map_of_mem (hsub concept hc)

/-- The term of targets says no more than what is written out. -/
theorem mem_of_mem_termSteps {targets : List (String × Dict Term)} {step : Step}
    (h : step ∈ termSteps (termOf targets)) : step ∈ conceptsSteps (written targets) := by
  rcases termOf_cases targets with ⟨only, ht, hterm⟩ | ⟨concepts, hterm, hsub, -⟩
  · rw [hterm, termSteps, List.mem_singleton] at h
    rw [ht, h]
    exact mention_mem_conceptsSteps List.mem_cons_self
  · rw [hterm, termSteps, mem_conceptsSteps] at h
    obtain ⟨concept, hc, hstep⟩ := h
    exact mem_conceptsSteps.mpr ⟨concept, hsub concept hc, hstep⟩

/-- Targets with references of their own are all top concepts of their term. -/
theorem mem_termTops {targets : List (String × Dict Term)} {reference : String}
    (hn : (targets.map (·.1)).Nodup) (h : reference ∈ targets.map (·.1)) :
    reference ∈ termTops (termOf targets) := by
  rcases termOf_cases targets with ⟨only, ht, hterm⟩ | ⟨concepts, hterm, -, hall⟩
  · rw [hterm, termTops]
    rw [ht] at h
    exact h
  · rw [← map_written] at h
    obtain ⟨concept, hc, rfl⟩ := List.mem_map.mp h
    rw [hterm, termTops]
    exact List.mem_map_of_mem ((hall hn).mem_iff.mpr hc)

/-- The term of targets with references of their own says all that is written out. -/
theorem mem_termSteps {targets : List (String × Dict Term)} {step : Step}
    (hn : (targets.map (·.1)).Nodup) (h : step ∈ conceptsSteps (written targets)) :
    step ∈ termSteps (termOf targets) := by
  rcases termOf_cases targets with ⟨only, ht, hterm⟩ | ⟨concepts, hterm, -, hall⟩
  · rw [hterm, termSteps, List.mem_singleton]
    rw [ht] at h
    obtain ⟨concept, hc, hstep⟩ := mem_conceptsSteps.mp h
    rw [written, List.map_singleton, List.mem_singleton] at hc
    subst hc
    rcases hstep with hstep | hstep
    · exact hstep
    · change step ∈ branchesSteps only [] at hstep
      rw [branchesSteps] at hstep
      cases hstep
  · rw [hterm, termSteps]
    obtain ⟨concept, hc, hstep⟩ := mem_conceptsSteps.mp h
    exact mem_conceptsSteps.mpr ⟨concept, (hall hn).mem_iff.mpr hc, hstep⟩

/-- Targets by type are those of relations, each target once and no type without one. -/
structure Groups (relations : List Relation) (groups : Dict (List String)) : Prop where
  /-- Under a type stand the targets of the relations of this type. -/
  mem_iff : ∀ type target, target ∈ (groups.get? type).getD [] ↔
    ∃ relation ∈ relations, relation.triple.type = type ∧ relation.triple.target = target
  /-- Under a type stand targets, each once. -/
  filled : ∀ type targets, groups.get? type = some targets → targets ≠ [] ∧ targets.Nodup

/-- Targets by type with that of one more relation. -/
def addTarget (groups : Dict (List String)) (relation : Relation) : Dict (List String) :=
  let targets := (groups.get? relation.triple.type).getD []
  let target := relation.triple.target
  groups.insert relation.triple.type (if targets.contains target then targets else targets ++ [target])

/-- The targets of a concept by type are gathered relation by relation. -/
theorem targetsByType_eq (g : Graph) (id : String) :
    targetsByType g id = (g.relationsAt id .outgoing).foldl addTarget .empty := rfl

/-- A target put last unless it is there is one of the targets. -/
theorem mem_addLast {targets : List String} {target other : String} :
    other ∈ (if targets.contains target then targets else targets ++ [target]) ↔
      other ∈ targets ∨ target = other := by
  split
  next there =>
    refine ⟨.inl, fun ho => ho.elim id fun same => ?_⟩
    rw [← same]
    exact List.contains_iff_mem.mp there
  next => rw [List.mem_append, List.mem_singleton, eq_comm]

/-- A target put last unless it is there is there once. -/
theorem nodup_addLast {targets : List String} {target : String} (h : targets.Nodup) :
    (if targets.contains target then targets else targets ++ [target]).Nodup := by
  split
  next => exact h
  next absent =>
    rw [List.contains_iff_mem] at absent
    refine List.nodup_append.mpr ⟨h, List.nodup_singleton _, ?_⟩
    intro first hf last hl hsame
    rw [List.mem_singleton.mp hl] at hsame
    exact absent (hsame ▸ hf)

/-- A relation adds its target under its type. -/
theorem Groups.add {relations : List Relation} {groups : Dict (List String)}
    (h : Groups relations groups) (relation : Relation) :
    Groups (relations ++ [relation]) (addTarget groups relation) := by
  constructor
  · intro type target
    simp only [List.mem_append, List.mem_singleton, or_and_right, exists_or, exists_eq_left,
      ← h.mem_iff, addTarget, Dict.get?_insert]
    by_cases same : relation.triple.type = type
    · subst same
      rw [if_pos rfl, Option.getD_some, mem_addLast]
      exact or_congr_right ⟨fun ht => ⟨rfl, ht⟩, fun ht => ht.2⟩
    · rw [if_neg same]
      exact ⟨.inl, fun ht => ht.resolve_right fun hboth => same hboth.1⟩
  · intro type targets hg
    rw [addTarget, Dict.get?_insert] at hg
    by_cases same : relation.triple.type = type
    · rw [if_pos same] at hg
      have hdistinct : ((groups.get? relation.triple.type).getD []).Nodup := by
        cases he : groups.get? relation.triple.type with
        | none => exact List.nodup_nil
        | some before => exact (h.filled _ _ he).2
      rw [← Option.some.inj hg]
      exact ⟨List.ne_nil_of_mem (mem_addLast.mpr (.inr rfl)), nodup_addLast hdistinct⟩
    · rw [if_neg same] at hg
      exact h.filled type targets hg

/-- Relations add their targets one after the other. -/
theorem Groups.addAll {relations : List Relation} {groups : Dict (List String)}
    (h : Groups relations groups) (rest : List Relation) :
    Groups (relations ++ rest) (rest.foldl addTarget groups) := by
  induction rest generalizing relations groups with
  | nil =>
    rw [List.append_nil]
    exact h
  | cons relation rest ih =>
    have hnext := ih (h.add relation)
    rw [List.append_assoc] at hnext
    exact hnext

/-- The targets of a concept by type are those of the relations that leave it. -/
theorem groups_targetsByType (g : Graph) (id : String) :
    Groups (g.relationsAt id .outgoing) (targetsByType g id) := by
  have hempty : Groups [] .empty := ⟨fun type target => by simp, nofun⟩
  rw [targetsByType_eq]
  exact hempty.addAll (g.relationsAt id .outgoing)

/-- A target stands under a type when some relation leads to it. -/
theorem mem_targetsByType {type target : String} {targets : List String}
    (hg : (type, targets) ∈ (targetsByType g id).entries) :
    target ∈ targets ↔ ∃ relation ∈ g.relationList, relation.triple = ⟨id, type, target⟩ := by
  have hiff := (groups_targetsByType g id).mem_iff type target
  rw [Dict.mem_entries.mp hg, Option.getD_some] at hiff
  rw [hiff]
  simp only [Graph.relationsAt, List.mem_filter, Relation.touches, decide_eq_true_eq]
  constructor
  · rintro ⟨relation, ⟨hr, hs⟩, ht, htarget⟩
    exact ⟨relation, hr, by rw [← hs, ← ht, ← htarget]⟩
  · rintro ⟨relation, hr, he⟩
    exact ⟨relation, ⟨hr, by rw [he]⟩, by rw [he], by rw [he]⟩

/-- Targets are concepts of the graph. -/
theorem hasConcept_of_mem (hw : g.WellFormed) {type target : String} {targets : List String}
    (hg : (type, targets) ∈ (targetsByType g id).entries) (ht : target ∈ targets) :
    g.hasConcept target = true := by
  obtain ⟨relation, hr, he⟩ := (mem_targetsByType hg).mp ht
  have hm := hw.target_mem _ _ (hw.mem_relationList.mp hr)
  rw [he] at hm
  exact hm

/-- No type is without a target. -/
theorem exists_target {type : String} {targets : List String}
    (hg : (type, targets) ∈ (targetsByType g id).entries) : ∃ target, target ∈ targets :=
  List.exists_mem_of_ne_nil _ ((groups_targetsByType g id).filled _ _ (Dict.mem_entries.mp hg)).1

/-- Every entry has the type of some relation. -/
theorem exists_relation_of_entry {entry : String × List String}
    (he : entry ∈ (targetsByType g id).entries) :
    ∃ relation ∈ g.relationList, relation.triple.type = entry.1 := by
  obtain ⟨target, ht⟩ := exists_target he
  obtain ⟨relation, hr, htriple⟩ := (mem_targetsByType he).mp ht
  exact ⟨relation, hr, congrArg Triple.type htriple⟩

/-- Every type of a relation that leaves a concept has an entry. -/
theorem exists_targetsByType {relation : Relation} (hr : relation ∈ g.relationList) :
    ∃ targets, (relation.triple.type, targets) ∈ (targetsByType g relation.triple.source).entries := by
  have hmem := ((groups_targetsByType g relation.triple.source).mem_iff relation.triple.type
    relation.triple.target).mpr ⟨relation, ?_, rfl, rfl⟩
  · cases hg : (targetsByType g relation.triple.source).get? relation.triple.type with
    | none =>
      rw [hg] at hmem
      cases hmem
    | some targets => exact ⟨targets, Dict.mem_entries.mpr hg⟩
  · exact List.mem_filter.mpr ⟨hr, decide_eq_true rfl⟩

/-- A concept of a graph is referred to as itself. -/
theorem referenceTo_eq {concept : Concept} (hw : g.WellFormed) (hc : concept ∈ g.conceptList) :
    referenceTo g concept.id = concept.reference := by
  unfold referenceTo Graph.concept?
  rw [hw.mem_conceptList.mp hc]

/-- A graph accounts for a step that mentions one of its concepts, has a key for the type of one of its
relations or states one of these. Keys are marked only if that is asked for. -/
def AccountsFor (g : Graph) (markFanOut : Bool) : Step → Prop
  | .mention reference => ∃ id, g.hasConcept id = true ∧ reference = referenceTo g id
  | .key text => ∃ relation ∈ g.relationList, ∃ toAll, (toAll = true → markFanOut = true) ∧
      text = RelationKey.text ⟨.forward, relation.triple.type, toAll⟩
  | .state text above below => ∃ relation ∈ g.relationList, ∃ toAll,
      (toAll = true → markFanOut = true) ∧
      text = RelationKey.text ⟨.forward, relation.triple.type, toAll⟩ ∧
      above = referenceTo g relation.triple.source ∧ below = referenceTo g relation.triple.target

/-- A graph is kept by another one that refers to its concepts alike and has no more relations that leave
them. A walk that starts in it does not leave it. -/
structure KeptIn (kept g : Graph) : Prop extends Graph.WellFormed kept where
  /-- Concepts are referred to alike. -/
  reference_eq : ∀ id, kept.hasConcept id = true → referenceTo kept id = referenceTo g id
  /-- Relations that leave a concept are kept with it. -/
  relation_mem : ∀ relation ∈ g.relationList, kept.hasConcept relation.triple.source = true →
    relation ∈ kept.relationList

/-- A well-formed graph keeps all of itself. -/
theorem KeptIn.refl (hw : g.WellFormed) : KeptIn g g :=
  ⟨hw, fun _ _ => rfl, fun _ hr _ => hr⟩

/-- The relations of a kept concept under its types are kept. -/
theorem KeptIn.exists_relation (h : KeptIn kept g) (hid : kept.hasConcept id = true) {type : String}
    {targets : List String} (hg : (type, targets) ∈ (targetsByType g id).entries) {target : String}
    (ht : target ∈ targets) :
    ∃ relation ∈ kept.relationList, relation.triple = ⟨id, type, target⟩ := by
  obtain ⟨relation, hr, he⟩ := (mem_targetsByType hg).mp ht
  have hsource : kept.hasConcept relation.triple.source = true := by
    rw [he]
    exact hid
  exact ⟨relation, h.relation_mem relation hr hsource, he⟩

/-- What a writer writes below a kept concept is accounted for. -/
def WritesThere (kept g : Graph) (markFanOut : Bool)
    (write : List String → String → Dict Term × List String) : Prop :=
  ∀ visited id, kept.hasConcept id = true →
    ∀ step ∈ branchesSteps (referenceTo g id) (write visited id).1.entries,
      AccountsFor kept markFanOut step

/-- Each target is written out under its reference. -/
theorem map_writeTargets (write : List String → String → Dict Term × List String)
    (visited targets : List String) :
    (writeTargets g write visited targets).1.map (·.1) = targets.map (referenceTo g) := by
  induction targets generalizing visited with
  | nil => rfl
  | cons target rest ih =>
    rw [writeTargets, List.map_cons]
    exact congrArg _ (ih _)

/-- What is written out below kept targets is accounted for. -/
theorem accountsFor_writeTargets {write : List String → String → Dict Term × List String}
    (hkept : KeptIn kept g) (hwrite : WritesThere kept g markFanOut write) {targets : List String}
    (ht : ∀ target ∈ targets, kept.hasConcept target = true) {visited : List String} {step : Step}
    (h : step ∈ conceptsSteps (written (writeTargets g write visited targets).1)) :
    AccountsFor kept markFanOut step := by
  induction targets generalizing visited with
  | nil =>
    change step ∈ conceptsSteps [] at h
    rw [conceptsSteps] at h
    cases h
  | cons target rest ih =>
    have hhead := ht target List.mem_cons_self
    rw [writeTargets, written, List.map_cons, ← written, conceptsSteps, List.mem_cons,
      List.mem_append] at h
    rcases h with rfl | h | h
    · exact ⟨target, hhead, (hkept.reference_eq target hhead).symm⟩
    · split at h
      next =>
        change step ∈ branchesSteps _ [] at h
        rw [branchesSteps] at h
        cases h
      next => exact hwrite visited target hhead step h
    · exact ih (fun other ho => ht other (List.mem_cons_of_mem _ ho)) h

/-- What is written out type by type below a kept concept is accounted for. -/
theorem accountsFor_writeTypes {write : List String → String → Dict Term × List String}
    (hkept : KeptIn kept g) (hid : kept.hasConcept id = true)
    (hwrite : WritesThere kept g markFanOut write) {types : List (String × List String)}
    (htypes : ∀ entry ∈ types, entry ∈ (targetsByType g id).entries)
    {visited : List String} {branches : Dict Term}
    (hbranches : ∀ step ∈ branchesSteps (referenceTo g id) branches.entries,
      AccountsFor kept markFanOut step) {step : Step}
    (h : step ∈ branchesSteps (referenceTo g id)
      (writeTypes g markFanOut write visited branches types).1.entries) :
    AccountsFor kept markFanOut step := by
  induction types generalizing visited branches with
  | nil => exact hbranches step h
  | cons entry rest ih =>
    obtain ⟨type, targets⟩ := entry
    have hentry := htypes _ List.mem_cons_self
    have hhas : ∀ target ∈ targets, kept.hasConcept target = true := by
      intro target ht
      obtain ⟨relation, hr, he⟩ := hkept.exists_relation hid hentry ht
      have hmem := hkept.target_mem _ _ (hkept.mem_relationList.mp hr)
      rw [he] at hmem
      exact hmem
    obtain ⟨first, hfirst⟩ := exists_target hentry
    have hmark : (markFanOut && decide (1 < targets.length)) = true → markFanOut = true :=
      fun hboth => (Bool.and_eq_true_iff.mp hboth).1
    rw [writeTypes] at h
    refine ih (fun other ho => htypes other (List.mem_cons_of_mem _ ho)) ?_ h
    intro step hstep
    obtain ⟨branch, hb, hstep⟩ := mem_branchesSteps.mp hstep
    rcases Dict.mem_entries_insert.mp hb with ⟨hkey, hterm⟩ | ⟨-, hold⟩
    · rw [← hkey, ← hterm] at hstep
      rcases hstep with rfl | hstep | ⟨below, hbelow, rfl⟩
      · obtain ⟨relation, hr, he⟩ := hkept.exists_relation hid hentry hfirst
        exact ⟨relation, hr, _, hmark, by rw [he]⟩
      · exact accountsFor_writeTargets hkept hwrite hhas (mem_of_mem_termSteps hstep)
      · have hmem := mem_of_mem_termTops hbelow
        rw [map_writeTargets] at hmem
        obtain ⟨target, ht, rfl⟩ := List.mem_map.mp hmem
        obtain ⟨relation, hr, he⟩ := hkept.exists_relation hid hentry ht
        have habove := (hkept.reference_eq id hid).symm
        have hbelow := (hkept.reference_eq target (hhas target ht)).symm
        exact ⟨relation, hr, _, hmark, by rw [he], by rw [he, habove], by rw [he, hbelow]⟩
    · exact hbranches step (mem_branchesSteps.mpr ⟨branch, hold, hstep⟩)

/-- What is written out below a kept concept is accounted for. -/
theorem accountsFor_writeConcept (hkept : KeptIn kept g) (levels : Nat) :
    WritesThere kept g markFanOut (writeConcept g markFanOut levels) := by
  induction levels with
  | zero =>
    intro visited id _ step h
    change step ∈ branchesSteps _ [] at h
    rw [branchesSteps] at h
    cases h
  | succ levels ih =>
    intro visited id hid step h
    rw [writeConcept] at h
    refine accountsFor_writeTypes hkept hid ih (fun _ he => he) ?_ h
    intro step hstep
    change step ∈ branchesSteps _ [] at hstep
    rw [branchesSteps] at hstep
    cases hstep

/-- What is written out at the top is accounted for. -/
theorem accountsFor_writeTops (hw : g.WellFormed) {concepts : List Concept}
    (hc : ∀ concept ∈ concepts, concept ∈ g.conceptList) {visited : List String}
    {outline : Dict Branches}
    (ho : ∀ step ∈ conceptsSteps outline.entries, AccountsFor g markFanOut step) {step : Step}
    (h : step ∈ conceptsSteps (writeTops g markFanOut visited outline concepts).entries) :
    AccountsFor g markFanOut step := by
  induction concepts generalizing visited outline with
  | nil => exact ho step h
  | cons concept rest ih =>
    have hconcept := hc concept List.mem_cons_self
    have hrest : ∀ other ∈ rest, other ∈ g.conceptList :=
      fun other hother => hc other (List.mem_cons_of_mem _ hother)
    have hhas : g.hasConcept concept.id = true :=
      Dict.contains_of_get? (hw.mem_conceptList.mp hconcept)
    rw [writeTops] at h
    split at h
    next => exact ih hrest ho h
    next =>
      refine ih hrest ?_ h
      intro step hstep
      obtain ⟨entry, he, hstep⟩ := mem_conceptsSteps.mp hstep
      rcases Dict.mem_entries_insert.mp he with ⟨hkey, hbranches⟩ | ⟨-, hold⟩
      · rw [← hkey, ← hbranches, ← referenceTo_eq hw hconcept] at hstep
        rcases hstep with rfl | hstep
        · exact ⟨concept.id, hhas, rfl⟩
        · exact accountsFor_writeConcept (.refl hw) _ _ _ hhas step hstep
      · exact ho step (mem_conceptsSteps.mpr ⟨entry, hold, hstep⟩)

/-- The concepts at the top are those of the graph. -/
theorem mem_topOrder {concept : Concept} : concept ∈ topOrder g ↔ concept ∈ g.conceptList := by
  unfold topOrder
  simp only [List.mem_append, List.mem_filter, Bool.not_eq_true', ← and_or_left]
  exact and_iff_left (Bool.eq_false_or_eq_true _).symm

/-- What an outline of a graph says is accounted for. -/
theorem accountsFor_ofGraph (hw : g.WellFormed) {step : Step}
    (h : step ∈ conceptsSteps (ofGraph g markFanOut)) : AccountsFor g markFanOut step := by
  refine accountsFor_writeTops hw (fun concept hc => mem_topOrder.mp hc) ?_ h
  intro step hstep
  change step ∈ conceptsSteps [] at hstep
  rw [conceptsSteps] at hstep
  cases hstep

end KnowledgeGraph.Outline
