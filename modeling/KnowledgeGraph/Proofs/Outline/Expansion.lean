import KnowledgeGraph.Proofs.Outline.Places
import KnowledgeGraph.Proofs.Outline.Rooted

/-!
# Every concept is expanded once

Writing a concept meets a new one at every level, so it goes no deeper than concepts remain. Between two
moments of the walk each concept that is newly met stands at one place where all relations that leave it
are stated, and at all other places nothing stands below. Main statement: the walk from a concept comes to
an end, whatever was met before; it meets what is reached past that, expands each of these concepts at one
place, and states every triple that leaves one of them once, there, and no other triple.
-/

namespace KnowledgeGraph.Outline

variable {g : Graph} {markFanOut : Bool} {id : String} {visited : List String} {levels : Nat}
  {write write' : List String → String → Dict Term × List String}

/-- The writer that goes so many levels deep, and leaves to another writer what is below them. -/
def unroll (g : Graph) (markFanOut : Bool) (deeper : List String → String → Dict Term × List String) :
    Nat → List String → String → Dict Term × List String
  | 0, visited, id => deeper visited id
  | levels + 1, visited, id =>
    writeTypes g markFanOut (unroll g markFanOut deeper levels) (id :: visited) .empty
      (targetsByType g id).entries

/-- Writing with more levels leaves to the writer of these what is below the others. -/
theorem writeConcept_add (more levels : Nat) : writeConcept g markFanOut (more + levels) =
    unroll g markFanOut (writeConcept g markFanOut more) levels := by
  induction levels with
  | zero => rfl
  | succ levels ih =>
    funext visited id
    rw [← Nat.add_assoc, writeConcept, ih, unroll]

/-- Two writers agree where no more than so many concepts remain. -/
def Agree (g : Graph) (levels : Nat) (write write' : List String → String → Dict Term × List String) :
    Prop :=
  ∀ visited id, g.hasConcept id = true → id ∉ visited → remaining g visited ≤ levels →
    write visited id = write' visited id

/-- Targets are written out alike by writers that agree. -/
theorem writeTargets_congr (h : Agree g levels write write') (hwrite : WritesAll g levels write')
    {targets : List String} (ht : ∀ target ∈ targets, g.hasConcept target = true)
    (hl : remaining g visited ≤ levels) :
    writeTargets g write visited targets = writeTargets g write' visited targets := by
  induction targets generalizing visited with
  | nil => rfl
  | cons target rest ih =>
    have hhead := ht target List.mem_cons_self
    have hrest : ∀ other ∈ rest, g.hasConcept other = true :=
      fun other ho => ht other (List.mem_cons_of_mem _ ho)
    rw [writeTargets, writeTargets]
    by_cases hv : visited.contains target = true
    · simp only [if_pos hv, ih hrest hl]
    · simp only [if_neg hv]
      rw [List.contains_iff_mem] at hv
      have hfewer := (hwrite visited target hhead hv hl).remaining_le
      rw [h visited target hhead hv hl, ih hrest (Nat.le_trans hfewer hl)]

/-- Types are written out alike by writers that agree. -/
theorem writeTypes_congr (h : Agree g levels write write') (hwrite : WritesAll g levels write')
    {types : List (String × List String)}
    (ht : ∀ entry ∈ types, ∀ target ∈ entry.2, g.hasConcept target = true)
    (hl : remaining g visited ≤ levels) (branches : Dict Term) :
    writeTypes g markFanOut write visited branches types =
      writeTypes g markFanOut write' visited branches types := by
  induction types generalizing visited branches with
  | nil => rfl
  | cons entry rest ih =>
    obtain ⟨type, targets⟩ := entry
    have hhead := ht _ List.mem_cons_self
    have hfewer := (covers_writeTargets hwrite hhead hl).remaining_le
    rw [writeTypes, writeTypes, writeTargets_congr h hwrite hhead hl]
    exact ih (fun other ho => ht other (List.mem_cons_of_mem _ ho)) (Nat.le_trans hfewer hl) _

/-- With as many levels as concepts remain it does not matter what would write below them. -/
theorem agree_unroll (h : TellsApart g markFanOut)
    (deeper : List String → String → Dict Term × List String) (levels : Nat) :
    Agree g levels (unroll g markFanOut deeper levels) (writeConcept g markFanOut levels) := by
  induction levels with
  | zero =>
    intro visited id hc hn hl
    exact absurd (remaining_cons_lt hc hn) (by omega)
  | succ levels ih =>
    intro visited id hc hn hl
    have hfewer := remaining_cons_lt hc hn
    rw [unroll, writeConcept]
    exact writeTypes_congr ih (covers_writeConcept h levels)
      (fun entry he target ht => hasConcept_of_mem h.toWellFormed he ht) (by omega) .empty

/-- The walk from a concept that was not met goes no deeper than concepts remain. -/
theorem unroll_remaining (h : TellsApart g markFanOut) (hc : g.hasConcept id = true)
    (hn : id ∉ visited) (deeper : List String → String → Dict Term × List String) :
    unroll g markFanOut deeper (remaining g visited) visited id =
      writeConcept g markFanOut g.concepts.size visited id := by
  -- Writing with all levels leaves to a writer of some of them what is below those that remain.
  obtain ⟨more, hmore⟩ := Nat.exists_eq_add_of_le' (remaining_le_size g visited)
  have hagree := fun deeper => agree_unroll h deeper (remaining g visited) visited id hc hn (Nat.le_refl _)
  rw [hmore, writeConcept_add, hagree, hagree]

/-- A triple under the references of its ends. -/
def named (g : Graph) (triple : Triple) : Triple :=
  ⟨referenceTo g triple.source, triple.type, referenceTo g triple.target⟩

/-- The triples of relations that lead from a concept to targets by type. -/
def leavingTriples (id : String) (types : List (String × List String)) : List Triple :=
  types.flatMap fun entry => entry.2.map fun target => ⟨id, entry.1, target⟩

/-- The triples of the targets of a concept are those of the relations that leave it. -/
theorem mem_leavingTriples {triple : Triple} :
    triple ∈ leavingTriples id (targetsByType g id).entries ↔
      ∃ relation ∈ g.relationList, relation.triple.source = id ∧ relation.triple = triple := by
  constructor
  · intro h
    obtain ⟨entry, he, hmem⟩ := List.mem_flatMap.mp h
    obtain ⟨target, ht, rfl⟩ := List.mem_map.mp hmem
    obtain ⟨relation, hr, htriple⟩ := (mem_targetsByType he).mp ht
    exact ⟨relation, hr, congrArg Triple.source htriple, htriple⟩
  · rintro ⟨relation, hr, rfl, rfl⟩
    obtain ⟨targets, hentry⟩ := exists_targetsByType hr
    have ht : relation.triple.target ∈ targets := (mem_targetsByType hentry).mpr ⟨relation, hr, rfl⟩
    exact List.mem_flatMap.mpr ⟨_, hentry, List.mem_map_of_mem ht⟩

/-- Each of them is there once. -/
theorem nodup_leavingTriples (g : Graph) (id : String) :
    (leavingTriples id (targetsByType g id).entries).Nodup := by
  refine List.nodup_flatMap.mpr ⟨fun entry he => ?_, ?_⟩
  · have htargets := ((groups_targetsByType g id).filled _ _ (Dict.mem_entries.mp he)).2
    exact htargets.map fun target other same => congrArg Triple.target same
  · refine (List.pairwise_map.mp (Dict.keys_nodup (targetsByType g id))).imp ?_
    intro entry other hne triple hmem hmem'
    obtain ⟨target, -, rfl⟩ := List.mem_map.mp hmem
    obtain ⟨target', -, same⟩ := List.mem_map.mp hmem'
    exact hne (congrArg Triple.type same).symm

/-- Relations of a graph that is told apart have the same triple if it is the same under the references of
its ends. -/
theorem TellsApart.eq_of_named (h : TellsApart g markFanOut) {relation other : Relation}
    (hr : relation ∈ g.relationList) (ho : other ∈ g.relationList)
    (same : named g relation.triple = named g other.triple) : relation.triple = other.triple := by
  obtain ⟨hsource, htype, htarget⟩ := Triple.mk.inj same
  have hr := h.mem_relationList.mp hr
  have ho := h.mem_relationList.mp ho
  have hsource := h.eq_of_reference _ _ (h.source_mem _ _ hr) (h.source_mem _ _ ho) hsource
  have htarget := h.eq_of_reference _ _ (h.target_mem _ _ hr) (h.target_mem _ _ ho) htarget
  calc relation.triple
      = ⟨relation.triple.source, relation.triple.type, relation.triple.target⟩ := rfl
    _ = other.triple := by rw [hsource, htype, htarget]

/-- What stands under a concept states the relations that leave it: each of their triples once, under the
references of its ends, and no other. -/
structure Details (g : Graph) (id : String) (branches : Branches) : Prop where
  /-- No triple is stated twice. -/
  once : (placeTriples (referenceTo g id, branches)).Nodup
  /-- Those of the relations that leave the concept are stated. -/
  mem_iff : ∀ triple, triple ∈ placeTriples (referenceTo g id, branches) ↔
    ∃ relation ∈ g.relationList, relation.triple.source = id ∧ named g relation.triple = triple

/-- The key of a type with its targets. -/
def keyOf (markFanOut : Bool) (entry : String × List String) : RelationKey :=
  ⟨.forward, entry.1, markFanOut && decide (1 < entry.2.length)⟩

/-- The keys of types with what is written under them, in the order in which they are written. -/
def writtenTypes (g : Graph) (markFanOut : Bool)
    (write : List String → String → Dict Term × List String) :
    List String → List (String × List String) → Branches × List String
  | visited, [] => ([], visited)
  | visited, entry :: rest =>
    let (targets, visited) := writeTargets g write visited entry.2
    let (others, visited) := writtenTypes g markFanOut write visited rest
    (((keyOf markFanOut entry).text, termOf targets) :: others, visited)

/-- Writing types enters their keys one after the other. -/
theorem writeTypes_eq (visited : List String) (branches : Dict Term)
    (types : List (String × List String)) :
    writeTypes g markFanOut write visited branches types =
      (branches.insertMany (writtenTypes g markFanOut write visited types).1,
        (writtenTypes g markFanOut write visited types).2) := by
  induction types generalizing visited branches with
  | nil => rfl
  | cons entry rest ih =>
    obtain ⟨type, targets⟩ := entry
    rw [writeTypes]
    exact ih _ _

/-- Each type is written under its key. -/
theorem map_writtenTypes (visited : List String) (types : List (String × List String)) :
    (writtenTypes g markFanOut write visited types).1.map (·.1) =
      types.map fun entry => (keyOf markFanOut entry).text := by
  induction types generalizing visited with
  | nil => rfl
  | cons entry rest ih =>
    rw [writtenTypes, List.map_cons]
    exact congrArg _ (ih _)

/-- The types of a concept are written under keys of their own. -/
theorem nodup_writtenTypes (h : TellsApart g markFanOut)
    (write : List String → String → Dict Term × List String) (visited : List String) (id : String) :
    ((writtenTypes g markFanOut write visited (targetsByType g id).entries).1.map (·.1)).Nodup := by
  rw [map_writtenTypes]
  refine List.pairwise_map.mpr ?_
  refine (List.pairwise_map.mp (Dict.keys_nodup (targetsByType g id))).imp_of_mem ?_
  intro entry other he ho hne same
  obtain ⟨relation, hr, htype⟩ := exists_relation_of_entry he
  obtain ⟨relation', hr', htype'⟩ := exists_relation_of_entry ho
  have htypes := h.eq_of_key relation hr relation' hr' (markFanOut && decide (1 < entry.2.length))
    (markFanOut && decide (1 < other.2.length)) (fun hboth => (Bool.and_eq_true_iff.mp hboth).1)
    fun hboth => (Bool.and_eq_true_iff.mp hboth).1
  rw [htype, htype'] at htypes
  exact hne (htypes same)

/-- Types under a concept state the triples that lead from it to their targets. -/
theorem placeTriples_writtenTypes (h : TellsApart g markFanOut)
    (hwritable : ∀ relation ∈ g.relationList, RelationKey.Writable relation.triple.type)
    {types : List (String × List String)} (ht : ∀ entry ∈ types, entry ∈ (targetsByType g id).entries)
    (visited : List String) :
    (placeTriples (referenceTo g id, (writtenTypes g markFanOut write visited types).1)).Perm
      ((leavingTriples id types).map (named g)) := by
  induction types generalizing visited with
  | nil => exact .refl _
  | cons entry rest ih =>
    have hentry := ht entry List.mem_cons_self
    obtain ⟨relation, hr, htype⟩ := exists_relation_of_entry hentry
    have hparse : RelationKey.parse (keyOf markFanOut entry).text = .ok (keyOf markFanOut entry) :=
      RelationKey.parse_forward (htype ▸ hwritable relation hr) _
    have htops := termTops_perm (nodup_writeTargets h write visited hentry)
    rw [map_writeTargets] at htops
    have hnext := ih (fun other ho => ht other (List.mem_cons_of_mem _ ho))
      (writeTargets g write visited entry.2).2
    rw [writtenTypes, leavingTriples, List.flatMap_cons, List.map_append, ← leavingTriples,
      placeTriples_cons hparse, List.map_map]
    refine .append ?_ hnext
    have hhead := htops.map ((keyOf markFanOut entry).triple (referenceTo g id))
    rwa [List.map_map] at hhead

/-- What is written under a concept details it. -/
theorem details_writtenTypes (h : TellsApart g markFanOut)
    (hwritable : ∀ relation ∈ g.relationList, RelationKey.Writable relation.triple.type)
    (write : List String → String → Dict Term × List String) (visited : List String) (id : String) :
    Details g id (Dict.ofList
      (writtenTypes g markFanOut write visited (targetsByType g id).entries).1).entries := by
  have hentries := Dict.entries_ofList_perm (nodup_writtenTypes h write visited id)
  have hperm := (placeTriples_perm hentries).trans
    (placeTriples_writtenTypes h hwritable (fun _ he => he) visited)
  refine ⟨hperm.nodup_iff.mpr ?_, fun triple => ?_⟩
  · refine (nodup_leavingTriples g id).map_on fun first hf second hs same => ?_
    obtain ⟨relation, hr, -, rfl⟩ := mem_leavingTriples.mp hf
    obtain ⟨other, ho, -, rfl⟩ := mem_leavingTriples.mp hs
    exact h.eq_of_named hr ho same
  · rw [hperm.mem_iff, List.mem_map]
    constructor
    · rintro ⟨leaving, hl, rfl⟩
      obtain ⟨relation, hr, hsource, rfl⟩ := mem_leavingTriples.mp hl
      exact ⟨relation, hr, hsource, rfl⟩
    · rintro ⟨relation, hr, hsource, rfl⟩
      exact ⟨relation.triple, mem_leavingTriples.mpr ⟨relation, hr, hsource, rfl⟩, rfl⟩

/-- How places that are written between two moments of a walk unfold the graph: each concept that was newly
met stands at one of them with its details, and the others are bare references to concepts that were met. -/
structure Unfolding (g : Graph) (before after : List String) (places : List (String × Branches)) where
  /-- The concepts that were newly met, the last one first. -/
  met : List String
  /-- What stands under each of them. -/
  below : String → Branches
  /-- The concepts of the bare references. -/
  again : List String
  /-- The walk meets these concepts and no others. -/
  after_eq : after = met ++ before
  /-- No concept is newly met twice. -/
  nodup : met.Nodup
  /-- None of them was met before. -/
  new : ∀ id ∈ met, id ∉ before
  /-- Bare references are to concepts that were met. -/
  known : ∀ id ∈ again, id ∈ after
  /-- The places are one for each newly met concept and the bare references. -/
  perm : places.Perm (met.map (fun id => (referenceTo g id, below id)) ++
    again.map fun id => (referenceTo g id, []))
  /-- What stands under a newly met concept details it. -/
  details : ∀ id ∈ met, Details g id (below id)

namespace Unfolding

variable {before middle after : List String} {places places' : List (String × Branches)}

/-- Where the walk stays nothing is written. -/
def refl (before : List String) : Unfolding g before before [] where
  met := []
  below _ := []
  again := []
  after_eq := rfl
  nodup := .nil
  new := nofun
  known := nofun
  perm := .refl _
  details := nofun

/-- A concept that was met is a bare reference. -/
def bare (h : id ∈ before) : Unfolding g before before [(referenceTo g id, [])] where
  met := []
  below _ := []
  again := [id]
  after_eq := rfl
  nodup := .nil
  new := nofun
  known := List.forall_mem_singleton.mpr h
  perm := .refl _
  details := nofun

/-- A concept that is newly met is expanded at a place of its own. -/
def single (hn : id ∉ before) {branches : Branches} (hd : Details g id branches) :
    Unfolding g before (id :: before) [(referenceTo g id, branches)] where
  met := [id]
  below _ := branches
  again := []
  after_eq := rfl
  nodup := List.nodup_singleton id
  new := List.forall_mem_singleton.mpr hn
  known := nofun
  perm := .refl _
  details := List.forall_mem_singleton.mpr hd

/-- The order of the places does not matter. -/
def ofPerm (u : Unfolding g before after places) (h : places'.Perm places) :
    Unfolding g before after places' :=
  { u with perm := h.trans u.perm }

/-- What is met then is newly met or was met before. -/
theorem mem_after (u : Unfolding g before after places) : id ∈ after ↔ id ∈ u.met ∨ id ∈ before :=
  (iff_of_eq (congrArg (id ∈ ·) u.after_eq)).trans List.mem_append

/-- What is newly met is met then and was not met before. -/
theorem mem_met (u : Unfolding g before after places) : id ∈ u.met ↔ id ∈ after ∧ id ∉ before := by
  rw [u.mem_after]
  constructor
  · exact fun h => ⟨.inl h, u.new id h⟩
  · exact fun h => h.1.resolve_right h.2

/-- It leaves no more than remained before. -/
theorem remaining_le (u : Unfolding g before after places) : remaining g after ≤ remaining g before :=
  remaining_le_of_subset fun _ hid => u.mem_after.mpr (.inr hid)

/-- One part of a walk follows another. What the second part newly meets was not met in the first one. -/
def trans (u : Unfolding g before middle places) (v : Unfolding g middle after places') :
    Unfolding g before after (places ++ places') where
  met := v.met ++ u.met
  below id := if id ∈ u.met then u.below id else v.below id
  again := u.again ++ v.again
  after_eq := calc after
      = v.met ++ middle := v.after_eq
    _ = v.met ++ (u.met ++ before) := congrArg _ u.after_eq
    _ = v.met ++ u.met ++ before := (List.append_assoc ..).symm
  nodup := by
    have hapart : ∀ id ∈ v.met, ∀ other ∈ u.met, id ≠ other := by
      intro id hv other hu same
      have hmiddle : other ∈ middle := u.mem_after.mpr (.inl hu)
      exact v.new id hv (same ▸ hmiddle)
    exact List.nodup_append.mpr ⟨v.nodup, u.nodup, hapart⟩
  new := by
    intro id hid hbefore
    rcases List.mem_append.mp hid with hv | hu
    · have hmiddle : id ∈ middle := u.mem_after.mpr (.inr hbefore)
      exact v.new id hv hmiddle
    · exact u.new id hu hbefore
  known := by
    intro id hid
    rcases List.mem_append.mp hid with hu | hv
    · have hmiddle : id ∈ middle := u.known id hu
      exact v.mem_after.mpr (.inr hmiddle)
    · exact v.known id hv
  perm := by
    have hfirst : u.met.map (fun id => (referenceTo g id, if id ∈ u.met then u.below id else v.below id)) =
        u.met.map fun id => (referenceTo g id, u.below id) :=
      List.map_congr_left fun id hid => by rw [if_pos hid]
    have hsecond : v.met.map (fun id => (referenceTo g id, if id ∈ u.met then u.below id else v.below id)) =
        v.met.map fun id => (referenceTo g id, v.below id) :=
      List.map_congr_left fun id hid => by rw [if_neg fun hu => v.new id hid (u.mem_after.mpr (.inl hu))]
    rw [List.map_append, List.map_append, hfirst, hsecond]
    -- The expansions of both parts are brought to the front, those of the second one first.
    refine (u.perm.append v.perm).trans ?_
    rw [List.append_assoc, List.append_assoc]
    refine ((List.perm_append_comm_assoc _ _ _).append_left _).trans ?_
    exact List.perm_append_comm_assoc _ _ _
  details := by
    intro id hid
    by_cases hu : id ∈ u.met
    · rw [if_pos hu]
      exact u.details id hu
    · have hv : id ∈ v.met := (List.mem_append.mp hid).resolve_right hu
      rw [if_neg hu]
      exact v.details id hv

/-- The places together state what the newly met concepts state at theirs. -/
theorem triples_perm (u : Unfolding g before after places) : (places.flatMap placeTriples).Perm
    (u.met.flatMap fun id => placeTriples (referenceTo g id, u.below id)) := by
  have hbare : (u.again.map fun id => (referenceTo g id, [])).flatMap placeTriples = [] := by
    simp only [List.flatMap_map, placeTriples_bare, List.flatMap_eq_nil_iff, implies_true]
  have hperm := u.perm.flatMap_right placeTriples
  rwa [List.flatMap_append, hbare, List.append_nil, List.flatMap_map] at hperm

/-- No triple is stated twice, if references tell concepts apart. -/
theorem nodup_triples (h : TellsApart g markFanOut) (u : Unfolding g before after places) :
    (places.flatMap placeTriples).Nodup := by
  refine u.triples_perm.nodup_iff.mpr (List.nodup_flatMap.mpr ⟨fun id hid => (u.details id hid).once, ?_⟩)
  refine u.nodup.imp_of_mem fun {first second} hf hs hne triple hfirst hsecond => ?_
  obtain ⟨relation, hr, rfl, rfl⟩ := ((u.details first hf).mem_iff triple).mp hfirst
  obtain ⟨other, ho, rfl, same⟩ := ((u.details second hs).mem_iff _).mp hsecond
  exact hne (congrArg Triple.source (h.eq_of_named ho hr same)).symm

/-- The triples that are stated are those of the relations that leave the newly met concepts. -/
theorem mem_triples (u : Unfolding g before after places) (triple : Triple) :
    triple ∈ places.flatMap placeTriples ↔ ∃ relation ∈ g.relationList,
      (relation.triple.source ∈ after ∧ relation.triple.source ∉ before) ∧
        named g relation.triple = triple := by
  rw [u.triples_perm.mem_iff, List.mem_flatMap]
  constructor
  · rintro ⟨id, hid, htriple⟩
    obtain ⟨relation, hr, rfl, hnamed⟩ := ((u.details id hid).mem_iff triple).mp htriple
    exact ⟨relation, hr, u.mem_met.mp hid, hnamed⟩
  · rintro ⟨relation, hr, hsource, hnamed⟩
    have hid := u.mem_met.mpr hsource
    exact ⟨_, hid, ((u.details _ hid).mem_iff triple).mpr ⟨relation, hr, rfl, hnamed⟩⟩

end Unfolding

/-- A writer unfolds what remains when that is no more than so many concepts. -/
def Unfolds (g : Graph) (levels : Nat) (write : List String → String → Dict Term × List String) : Prop :=
  ∀ visited id, g.hasConcept id = true → id ∉ visited → remaining g visited ≤ levels →
    Nonempty (Unfolding g visited (write visited id).2
      (conceptsPlaces [(referenceTo g id, (write visited id).1.entries)]))

/-- Targets are unfolded by what is written out below them. -/
theorem unfolds_writeTargets (hwrite : Unfolds g levels write) {targets : List String}
    (ht : ∀ target ∈ targets, g.hasConcept target = true) (hl : remaining g visited ≤ levels) :
    Nonempty (Unfolding g visited (writeTargets g write visited targets).2
      (conceptsPlaces (written (writeTargets g write visited targets).1))) := by
  induction targets generalizing visited with
  | nil =>
    rw [writeTargets, written, List.map_nil, conceptsPlaces]
    exact ⟨.refl visited⟩
  | cons target rest ih =>
    have hhead := ht target List.mem_cons_self
    have hrest : ∀ other ∈ rest, g.hasConcept other = true :=
      fun other ho => ht other (List.mem_cons_of_mem _ ho)
    rw [writeTargets, written, List.map_cons, ← written, conceptsPlaces_cons]
    by_cases hv : visited.contains target = true
    · simp only [if_pos hv]
      rw [List.contains_iff_mem] at hv
      obtain ⟨others⟩ := ih hrest hl
      exact ⟨(Unfolding.bare hv).trans others⟩
    · simp only [if_neg hv]
      rw [List.contains_iff_mem] at hv
      obtain ⟨first⟩ := hwrite visited target hhead hv hl
      obtain ⟨others⟩ := ih hrest (Nat.le_trans first.remaining_le hl)
      exact ⟨first.trans others⟩

/-- Types are unfolded by what is written out under them. -/
theorem unfolds_writtenTypes (h : TellsApart g markFanOut) (hwrite : Unfolds g levels write)
    {types : List (String × List String)} (ht : ∀ entry ∈ types, entry ∈ (targetsByType g id).entries)
    (hl : remaining g visited ≤ levels) :
    Nonempty (Unfolding g visited (writtenTypes g markFanOut write visited types).2
      (branchesPlaces (writtenTypes g markFanOut write visited types).1)) := by
  induction types generalizing visited with
  | nil =>
    rw [writtenTypes, branchesPlaces]
    exact ⟨.refl visited⟩
  | cons entry rest ih =>
    have hentry := ht entry List.mem_cons_self
    have hrest : ∀ other ∈ rest, other ∈ (targetsByType g id).entries :=
      fun other ho => ht other (List.mem_cons_of_mem _ ho)
    obtain ⟨first⟩ := unfolds_writeTargets hwrite
      (fun target htarget => hasConcept_of_mem h.toWellFormed hentry htarget) hl
    obtain ⟨others⟩ := ih hrest (Nat.le_trans first.remaining_le hl)
    have hplaces := termPlaces_perm (nodup_writeTargets h write visited hentry)
    rw [writtenTypes, branchesPlaces]
    exact ⟨(first.ofPerm hplaces).trans others⟩

/-- A concept is unfolded by what is written out below it, with enough levels. -/
theorem unfolds_writeConcept (h : TellsApart g markFanOut)
    (hwritable : ∀ relation ∈ g.relationList, RelationKey.Writable relation.triple.type) (levels : Nat) :
    Unfolds g levels (writeConcept g markFanOut levels) := by
  induction levels with
  | zero =>
    intro visited id hc hn hl
    exact absurd (remaining_cons_lt hc hn) (by omega)
  | succ levels ih =>
    intro visited id hc hn hl
    have hfewer := remaining_cons_lt hc hn
    obtain ⟨below⟩ := unfolds_writtenTypes h ih (fun _ he => he)
      (by omega : remaining g (id :: visited) ≤ levels)
    have hdetails := details_writtenTypes h hwritable (writeConcept g markFanOut levels) (id :: visited) id
    have hentries := Dict.entries_ofList_perm
      (nodup_writtenTypes h (writeConcept g markFanOut levels) (id :: visited) id)
    rw [writeConcept, writeTypes_eq, conceptsPlaces_singleton]
    exact ⟨(Unfolding.single hn hdetails).trans (below.ofPerm (branchesPlaces_perm hentries))⟩

/-- The walk from a concept that was not met, in a graph whose concepts have references of their own and
whose types can be written, comes to an end: it goes no deeper than concepts remain. It meets what is
reached past what was met before. What it writes unfolds the graph between these moments: each newly met
concept is expanded at one place and is a bare reference at all others. Each triple that leaves one of them
is stated once, where this is expanded, and no other triple is. -/
theorem expands_each_once (hw : g.WellFormed)
    (hr : ∀ first ∈ g.conceptList, ∀ second ∈ g.conceptList,
      first.reference = second.reference → first = second)
    (ht : ∀ relation ∈ g.relationList, RelationKey.Writable relation.triple.type)
    (markFanOut : Bool) (visited : List String) (hc : g.hasConcept id = true) (hn : id ∉ visited) :
    (∀ deeper, unroll g markFanOut deeper (remaining g visited) visited id =
      writeConcept g markFanOut g.concepts.size visited id) ∧
    ∃ branches after, writeConcept g markFanOut g.concepts.size visited id = (branches, after) ∧
      (∀ other, other ∈ after ↔ other ∈ visited ∨ g.ReachesPast visited id other) ∧
      Nonempty (Unfolding g visited after (conceptsPlaces [(referenceTo g id, branches.entries)])) ∧
      ((conceptsPlaces [(referenceTo g id, branches.entries)]).flatMap placeTriples).Nodup ∧
      ∀ triple, triple ∈ (conceptsPlaces [(referenceTo g id, branches.entries)]).flatMap placeTriples ↔
        ∃ relation ∈ g.relationList, (relation.triple.source ∈ after ∧ relation.triple.source ∉ visited) ∧
          named g relation.triple = triple := by
  have hapart := tellsApart_of_writable hw hr ht markFanOut
  have hlevels := remaining_le_size g visited
  have hcovers := covers_writeConcept hapart g.concepts.size visited id hc hn hlevels
  obtain ⟨unfolding⟩ := unfolds_writeConcept hapart ht g.concepts.size visited id hc hn hlevels
  refine ⟨unroll_remaining hapart hc hn, _, _, rfl, fun other => ?_, ⟨unfolding⟩,
    unfolding.nodup_triples hapart, unfolding.mem_triples⟩
  rw [hcovers.mem_iff_past]
  simp only [List.mem_singleton, exists_eq_left, hn, not_false_eq_true, true_and]

/-- From the bridge, past the market, the abbey, the mill and the station are reached. Bridge, market and
station are met again, and of the roads and railways that leave the four places each is stated once. -/
theorem expands_each_once_of_roads : roads.WellFormed ∧
    (∀ first ∈ roads.conceptList, ∀ second ∈ roads.conceptList,
      first.reference = second.reference → first = second) ∧
    (∀ relation ∈ roads.relationList, RelationKey.Writable relation.triple.type) ∧
    roads.hasConcept "bridge" = true ∧ "bridge" ∉ ["market"] ∧
    ∃ branches after, writeConcept roads true roads.concepts.size ["market"] "bridge" = (branches, after) ∧
      after = ["station", "mill", "abbey", "bridge", "market"] ∧
      (∀ other, other ∈ after ↔ other ∈ ["market"] ∨ roads.ReachesPast ["market"] "bridge" other) ∧
      Nonempty (Unfolding roads ["market"] after
        (conceptsPlaces [(referenceTo roads "bridge", branches.entries)])) ∧
      (conceptsPlaces [(referenceTo roads "bridge", branches.entries)]).flatMap placeTriples =
        [⟨"bridge", "road", "abbey"⟩, ⟨"bridge", "road", "mill"⟩, ⟨"abbey", "road", "bridge"⟩,
          ⟨"mill", "rail", "station"⟩, ⟨"mill", "road", "market"⟩, ⟨"station", "rail", "station"⟩] := by
  have hw : roads.WellFormed := Graph.wellFormed_ofStatements _ _
  have hr : ∀ first ∈ roads.conceptList, ∀ second ∈ roads.conceptList,
      first.reference = second.reference → first = second := by decide +kernel
  have ht : ∀ relation ∈ roads.relationList, RelationKey.Writable relation.triple.type := by
    decide +kernel
  have hc : roads.hasConcept "bridge" = true := by decide +kernel
  have hn : "bridge" ∉ ["market"] := by decide
  obtain ⟨-, branches, after, hwrite, hmet, hunfolds, -, -⟩ :=
    expands_each_once hw hr ht true ["market"] hc hn
  have hafter : (writeConcept roads true roads.concepts.size ["market"] "bridge").2 =
      ["station", "mill", "abbey", "bridge", "market"] := by decide +kernel
  have htriples : (conceptsPlaces [(referenceTo roads "bridge",
      (writeConcept roads true roads.concepts.size ["market"] "bridge").1.entries)]).flatMap placeTriples =
        [⟨"bridge", "road", "abbey"⟩, ⟨"bridge", "road", "mill"⟩, ⟨"abbey", "road", "bridge"⟩,
          ⟨"mill", "rail", "station"⟩, ⟨"mill", "road", "market"⟩, ⟨"station", "rail", "station"⟩] := by
    decide +kernel
  rw [hwrite] at hafter htriples
  exact ⟨hw, hr, ht, hc, hn, branches, after, hwrite, hafter, hmet, hunfolds, htriples⟩

end KnowledgeGraph.Outline
