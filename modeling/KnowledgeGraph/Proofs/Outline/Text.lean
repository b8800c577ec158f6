import KnowledgeGraph.Proofs.Json.Reading
import KnowledgeGraph.Proofs.Outline.RoundTrip

/-!
# Outlines as text

The text of an outline whose keys are in order is read as this outline, as long as no more arrays
and objects stand in one another than the reader allows, and is not read at all otherwise. A graph
that was read from text need not come back from its own text, therefore: writing puts a concept inside
of the one that leads to it, however flat it was written before, and a type that still ends with the
suffix for several targets loses it when it is read once more. Nothing else gets lost.
-/

namespace KnowledgeGraph

namespace Outline

variable {g : Graph} {markFanOut : Bool}

mutual

/-- A term whose keys are in order at every level. -/
def TermSorted : Term → Prop
  | .reference _ => True
  | .several terms => TermsSorted terms
  | .nested concepts => Ascending concepts ∧ ConceptsSorted concepts

/-- Terms whose keys are in order at every level. -/
def TermsSorted : List Term → Prop
  | [] => True
  | term :: terms => TermSorted term ∧ TermsSorted terms

/-- Concepts under which keys are in order at every level. -/
def ConceptsSorted : List (String × Branches) → Prop
  | [] => True
  | (_, branches) :: rest => Ascending branches ∧ BranchesSorted branches ∧ ConceptsSorted rest

/-- Relation keys under which keys are in order at every level. -/
def BranchesSorted : Branches → Prop
  | [] => True
  | (_, term) :: rest => TermSorted term ∧ BranchesSorted rest

end

mutual

/-- How many arrays and objects stand in one another where a term is written. -/
def termDepth : Term → Nat
  | .reference _ => 0
  | .several terms => termsDepth terms + 1
  | .nested concepts => conceptsDepth concepts + 1

/-- The greatest depth of terms. -/
def termsDepth : List Term → Nat
  | [] => 0
  | term :: terms => max (termDepth term) (termsDepth terms)

/-- The greatest depth of what stands under concepts. -/
def conceptsDepth : List (String × Branches) → Nat
  | [] => 0
  | (_, branches) :: rest => max (branchesDepth branches + 1) (conceptsDepth rest)

/-- The greatest depth of what stands under relation keys. -/
def branchesDepth : Branches → Nat
  | [] => 0
  | (_, term) :: rest => max (termDepth term) (branchesDepth rest)

end

/-- How many arrays and objects stand in one another where an outline is written. -/
def depth (outline : Outline) : Nat := conceptsDepth outline + 1

mutual

/-- A term is written without numbers. -/
theorem numberless_term : ∀ term, (termToJson term).Numberless
  | .reference text => by
    rw [termToJson, Json.Numberless]
    · trivial
    all_goals nofun
  | .several terms => by
    rw [termToJson, Json.Numberless]
    exact numberless_terms terms
  | .nested concepts => by
    rw [termToJson, Json.Numberless]
    exact numberless_concepts concepts

/-- Terms are written without numbers. -/
theorem numberless_terms : ∀ terms, Json.NumberlessItems (termsToJson terms)
  | [] => by
    rw [termsToJson, Json.NumberlessItems]
    trivial
  | term :: terms => by
    rw [termsToJson, Json.NumberlessItems]
    exact ⟨numberless_term term, numberless_terms terms⟩

/-- Concepts are written without numbers. -/
theorem numberless_concepts : ∀ concepts, Json.NumberlessMembers (conceptsToJson concepts)
  | [] => by
    rw [conceptsToJson, Json.NumberlessMembers]
    trivial
  | (reference, branches) :: rest => by
    rw [conceptsToJson, Json.NumberlessMembers, Json.Numberless]
    exact ⟨numberless_branches branches, numberless_concepts rest⟩

/-- What stands under relation keys is written without numbers. -/
theorem numberless_branches : ∀ branches, Json.NumberlessMembers (branchesToJson branches)
  | [] => by
    rw [branchesToJson, Json.NumberlessMembers]
    trivial
  | (key, term) :: rest => by
    rw [branchesToJson, Json.NumberlessMembers]
    exact ⟨numberless_term term, numberless_branches rest⟩

end

/-- What stands inside of one more array or object may be one less deep. -/
theorem within_succ {α : Type*} {depth limit : Nat} {x : α} :
    (if limit = 0 then none else if depth ≤ limit - 1 then some x else none) =
      if depth + 1 ≤ limit then some x else none := by
  cases limit with
  | zero => rfl
  | succ limit =>
    rw [if_neg (Nat.succ_ne_zero limit), Nat.add_sub_cancel]
    simp only [Nat.add_le_add_iff_right]

/-- Two parts are read when neither is too deep. -/
theorem within_max {α β γ : Type*} {first second limit : Nat} {x : α} {y : β} (f : α → β → γ) :
    ((if first ≤ limit then some x else none).bind fun a =>
        (if second ≤ limit then some y else none).bind fun b => some (f a b)) =
      if max first second ≤ limit then some (f x y) else none := by
  by_cases hf : first ≤ limit
  · by_cases hs : second ≤ limit
    · rw [if_pos hf, if_pos hs, if_pos (Nat.max_le.mpr ⟨hf, hs⟩)]
      rfl
    · rw [if_pos hf, if_neg hs, if_neg fun h => hs (Nat.max_le.mp h).2]
      rfl
  · rw [if_neg hf, if_neg fun h => hf (Nat.max_le.mp h).1]
    rfl

/-- A concept is read with what stands under it, and then the others. -/
theorem conceptsOfMembers?_cons {limit : Nat} {reference : String}
    {members rest : List (Option String × Json.Source)} :
    conceptsOfMembers? limit ((some reference, .object members) :: rest) =
      (if limit = 0 then none else branchesOfMembers? (limit - 1) members).bind fun branches =>
        (conceptsOfMembers? limit rest).bind fun concepts =>
          some ((reference, (Dict.ofList branches).entries) :: concepts) := by
  rw [conceptsOfMembers?]
  by_cases hl : limit = 0
  · simp only [if_pos hl]
    rfl
  · simp only [if_neg hl]
    rfl

-- The limit falls by one inside of every array and object, which is just what the depth counts. The
-- order of the keys is needed because the reader enters what it finds into dictionaries.
mutual

/-- A written term is read when it is not too deep. -/
theorem termOfSource?_source : ∀ (term : Term) {limit : Nat}, TermSorted term →
    termOfSource? limit (Json.source (termToJson term)) =
      if termDepth term ≤ limit then some term else none
  | .reference text, limit, _ => by
    rw [termToJson, Json.source, termOfSource?, termDepth, if_pos (Nat.zero_le limit)]
    rfl
  | .several terms, limit, h => by
    rw [TermSorted] at h
    rw [termToJson, Json.source, termOfSource?, termDepth, termsOfSources?_source terms h,
      apply_ite (Option.map Term.several), Option.map_some, Option.map_none, within_succ]
  | .nested concepts, limit, h => by
    rw [TermSorted] at h
    rw [termToJson, Json.source, termOfSource?, termDepth, conceptsOfMembers?_source concepts h.2,
      apply_ite (Option.map _), Option.map_some, Option.map_none, within_succ,
      Dict.entries_ofList h.1]

/-- Written terms are read when none is too deep. -/
theorem termsOfSources?_source : ∀ (terms : List Term) {limit : Nat}, TermsSorted terms →
    termsOfSources? limit (Json.itemSources (termsToJson terms)) =
      if termsDepth terms ≤ limit then some terms else none
  | [], limit, _ => by
    rw [termsToJson, Json.itemSources, termsOfSources?, termsDepth, if_pos (Nat.zero_le limit)]
  | term :: terms, limit, h => by
    rw [TermsSorted] at h
    rw [termsToJson, Json.itemSources, termsOfSources?, termsDepth, termOfSource?_source term h.1,
      termsOfSources?_source terms h.2]
    exact within_max List.cons

/-- Written concepts are read when nothing under them is too deep. -/
theorem conceptsOfMembers?_source : ∀ (concepts : List (String × Branches)) {limit : Nat},
    ConceptsSorted concepts →
    conceptsOfMembers? limit (Json.memberSources (conceptsToJson concepts)) =
      if conceptsDepth concepts ≤ limit then some concepts else none
  | [], limit, _ => by
    rw [conceptsToJson, Json.memberSources, conceptsOfMembers?, conceptsDepth,
      if_pos (Nat.zero_le limit)]
  | (reference, branches) :: rest, limit, h => by
    rw [ConceptsSorted] at h
    rw [conceptsToJson, Json.memberSources, Json.source, conceptsOfMembers?_cons, conceptsDepth,
      conceptsOfMembers?_source rest h.2.2, branchesOfMembers?_source branches h.2.1, within_succ]
    rw [within_max fun branches rest => (reference, (Dict.ofList branches).entries) :: rest,
      Dict.entries_ofList h.1]

/-- What was written under relation keys is read when it is not too deep. -/
theorem branchesOfMembers?_source : ∀ (branches : Branches) {limit : Nat},
    BranchesSorted branches →
    branchesOfMembers? limit (Json.memberSources (branchesToJson branches)) =
      if branchesDepth branches ≤ limit then some branches else none
  | [], limit, _ => by
    rw [branchesToJson, Json.memberSources, branchesOfMembers?, branchesDepth,
      if_pos (Nat.zero_le limit)]
  | (key, term) :: rest, limit, h => by
    rw [BranchesSorted] at h
    rw [branchesToJson, Json.memberSources, branchesOfMembers?, branchesDepth,
      termOfSource?_source term h.1, branchesOfMembers?_source rest h.2]
    exact within_max fun term rest => (key, term) :: rest

end

/-- The text of an outline whose keys are in order is read as this outline if it is not too deep, and
is not read otherwise. -/
theorem ofText_pretty {outline : Outline} (ha : Ascending outline) (hs : ConceptsSorted outline) :
    ofText (toJson outline).pretty =
      if outline.depth ≤ Json.Source.greatestDepth then .ok outline else .error .unreadable := by
  have hnumberless : (toJson outline).Numberless := by
    rw [toJson, Json.Numberless]
    exact numberless_concepts outline
  unfold ofText
  rw [Json.pretty, Json.readSource_textIn hnumberless, Option.bind_eq_bind, Option.bind_some, toJson,
    Json.source, ofSource?, conceptsOfMembers?_source outline hs]
  by_cases hd : outline.depth ≤ Json.Source.greatestDepth
  · rw [if_pos hd, if_pos (Nat.le_sub_of_add_le hd), Option.map_some, Dict.entries_ofList ha]
  · rw [if_neg hd, if_neg fun h => hd (Nat.add_le_of_le_sub (by decide) h)]
    rfl

/-- Relation keys are in order below when the terms under them are. -/
theorem branchesSorted_iff {branches : Branches} :
    BranchesSorted branches ↔ ∀ branch ∈ branches, TermSorted branch.2 := by
  induction branches with
  | nil => simp [BranchesSorted]
  | cons branch rest ih =>
    obtain ⟨key, term⟩ := branch
    rw [BranchesSorted, ih, List.forall_mem_cons]

/-- Concepts are in order below when the relation keys under them are. -/
theorem conceptsSorted_iff {concepts : List (String × Branches)} :
    ConceptsSorted concepts ↔
      ∀ concept ∈ concepts, Ascending concept.2 ∧ BranchesSorted concept.2 := by
  induction concepts with
  | nil => simp [ConceptsSorted]
  | cons concept rest ih =>
    obtain ⟨reference, branches⟩ := concept
    rw [ConceptsSorted, ih, List.forall_mem_cons, and_assoc]

/-- What stands under relation keys is no deeper than its deepest term. -/
theorem branchesDepth_le {branches : Branches} {limit : Nat} :
    branchesDepth branches ≤ limit ↔ ∀ branch ∈ branches, termDepth branch.2 ≤ limit := by
  induction branches with
  | nil => simp [branchesDepth]
  | cons branch rest ih =>
    obtain ⟨key, term⟩ := branch
    rw [branchesDepth, Nat.max_le, ih, List.forall_mem_cons]

/-- Concepts are one deeper than what stands under them. -/
theorem conceptsDepth_le {concepts : List (String × Branches)} {limit : Nat} :
    conceptsDepth concepts ≤ limit + 1 ↔ ∀ concept ∈ concepts, branchesDepth concept.2 ≤ limit := by
  induction concepts with
  | nil => simp [conceptsDepth]
  | cons concept rest ih =>
    obtain ⟨reference, branches⟩ := concept
    rw [conceptsDepth, Nat.max_le, ih, List.forall_mem_cons, Nat.add_le_add_iff_right]

/-- Relation keys that are in order at every level and under which nothing is deeper than a limit. -/
structure Tidy (limit : Nat) (branches : Branches) : Prop where
  /-- The keys are in order. -/
  ascending : Ascending branches
  /-- Below them keys are in order too. -/
  sorted : BranchesSorted branches
  /-- Nothing under them is deeper than the limit. -/
  depth_le : branchesDepth branches ≤ limit

namespace Tidy

variable {limit : Nat}

/-- No relation key is tidy. -/
theorem nil : Tidy limit [] where
  ascending := .nil
  sorted := by
    rw [BranchesSorted]
    trivial
  depth_le := by
    rw [branchesDepth]
    exact Nat.zero_le limit

/-- Setting a sorted term that is not too deep under a key leaves relation keys tidy. -/
theorem insert {branches : Dict Term} (h : Tidy limit branches.entries) (key : String) {term : Term}
    (hs : TermSorted term) (hd : termDepth term ≤ limit) :
    Tidy limit (branches.insert key term).entries := by
  have hentry : ∀ branch ∈ (branches.insert key term).entries,
      branch.2 = term ∨ branch ∈ branches.entries := by
    rintro ⟨other, below⟩ hb
    rcases Dict.mem_entries_insert.mp hb with ⟨-, hsame⟩ | ⟨-, hold⟩
    · exact .inl hsame.symm
    · exact .inr hold
  refine ⟨(branches.insert key term).ascending, branchesSorted_iff.mpr fun branch hb => ?_,
    branchesDepth_le.mpr fun branch hb => ?_⟩
  · rcases hentry branch hb with hsame | hold
    · rw [hsame]
      exact hs
    · exact branchesSorted_iff.mp h.sorted branch hold
  · rcases hentry branch hb with hsame | hold
    · rw [hsame]
      exact hd
    · exact branchesDepth_le.mp h.depth_le branch hold

end Tidy

/-- A writer is tidy when what it writes below a concept is. -/
def WritesTidy (limit : Nat) (write : List String → String → Dict Term × List String) : Prop :=
  ∀ visited id, Tidy limit (write visited id).1.entries

/-- What is written out below targets is tidy. -/
theorem tidy_writeTargets {write : List String → String → Dict Term × List String} {limit : Nat}
    (h : WritesTidy limit write) (visited targets : List String) :
    ∀ concept ∈ written (writeTargets g write visited targets).1, Tidy limit concept.2 := by
  induction targets generalizing visited with
  | nil => exact nofun
  | cons target rest ih =>
    rw [writeTargets, written, List.map_cons, ← written, List.forall_mem_cons]
    refine ⟨?_, ih _⟩
    split
    · exact .nil
    · exact h visited target

/-- The concepts of a term of targets are in order. -/
theorem ascending_of_termOf {targets : List (String × Dict Term)}
    {concepts : List (String × Branches)} (h : termOf targets = .nested concepts) :
    Ascending concepts := by
  match targets, h with
  | [], h =>
    cases h
    exact (Dict.ofList []).ascending
  | [(reference, branches)], h =>
    rw [termOf] at h
    split at h
    · cases h
    · cases h
      exact List.pairwise_singleton _ _
  | _ :: _ :: _, h =>
    cases h
    exact (Dict.ofList _).ascending

/-- The term of targets below which everything is tidy is sorted and two levels deeper. -/
theorem tidy_termOf {targets : List (String × Dict Term)} {limit : Nat}
    (h : ∀ concept ∈ written targets, Tidy limit concept.2) :
    TermSorted (termOf targets) ∧ termDepth (termOf targets) ≤ limit + 2 := by
  rcases termOf_cases targets with ⟨only, -, hterm⟩ | ⟨concepts, hterm, hsub, -⟩
  · rw [hterm, TermSorted, termDepth]
    exact ⟨trivial, Nat.zero_le _⟩
  · have hdepth : conceptsDepth concepts ≤ limit + 1 :=
      conceptsDepth_le.mpr fun concept hc => (h concept (hsub concept hc)).depth_le
    rw [hterm, TermSorted, termDepth]
    refine ⟨⟨ascending_of_termOf hterm, conceptsSorted_iff.mpr fun concept hc => ?_⟩,
      Nat.add_le_add_right hdepth 1⟩
    have htidy := h concept (hsub concept hc)
    exact ⟨htidy.ascending, htidy.sorted⟩

/-- What is written out type by type is tidy. -/
theorem tidy_writeTypes {write : List String → String → Dict Term × List String} {limit : Nat}
    (h : WritesTidy limit write) (types : List (String × List String)) {visited : List String}
    {branches : Dict Term} (hb : Tidy (limit + 2) branches.entries) :
    Tidy (limit + 2) (writeTypes g markFanOut write visited branches types).1.entries := by
  induction types generalizing visited branches with
  | nil => exact hb
  | cons entry rest ih =>
    obtain ⟨type, targets⟩ := entry
    obtain ⟨hs, hd⟩ := tidy_termOf (tidy_writeTargets (g := g) h visited targets)
    rw [writeTypes]
    exact ih (hb.insert _ hs hd)

/-- What is written out below a concept is tidy, and every level adds two. -/
theorem tidy_writeConcept (levels : Nat) :
    WritesTidy (2 * levels) (writeConcept g markFanOut levels) := by
  induction levels with
  | zero => exact fun _ _ => .nil
  | succ levels ih =>
    intro visited id
    rw [writeConcept]
    exact tidy_writeTypes ih _ .nil

/-- What is written out at the top is tidy. -/
theorem tidy_writeTops {concepts : List Concept} {visited : List String} {outline : Dict Branches}
    (ho : ∀ entry ∈ outline.entries, Tidy (2 * g.concepts.size) entry.2) :
    ∀ entry ∈ (writeTops g markFanOut visited outline concepts).entries,
      Tidy (2 * g.concepts.size) entry.2 := by
  induction concepts generalizing visited outline with
  | nil => exact ho
  | cons concept rest ih =>
    rw [writeTops]
    split
    · exact ih ho
    · refine ih ?_
      rintro ⟨reference, branches⟩ he
      rcases Dict.mem_entries_insert.mp he with ⟨-, hsame⟩ | ⟨-, hold⟩
      · rw [← hsame]
        exact tidy_writeConcept _ _ _
      · exact ho _ hold

/-- Under each concept at the top of a graph's outline keys are tidy. -/
theorem tidy_ofGraph {entry : String × Branches} (he : entry ∈ ofGraph g markFanOut) :
    Tidy (2 * g.concepts.size) entry.2 :=
  tidy_writeTops (fun _ h => absurd h List.not_mem_nil) entry he

/-- The keys of a graph's outline are in order. -/
theorem sorted_ofGraph (g : Graph) (markFanOut : Bool) :
    Ascending (ofGraph g markFanOut) ∧ ConceptsSorted (ofGraph g markFanOut) :=
  ⟨Dict.ascending _, conceptsSorted_iff.mpr fun _ he =>
    ⟨(tidy_ofGraph he).ascending, (tidy_ofGraph he).sorted⟩⟩

/-- A graph's outline has two levels for each concept, besides its own two. -/
theorem depth_ofGraph_le : depth (ofGraph g markFanOut) ≤ 2 * g.concepts.size + 2 := by
  have hdepth : conceptsDepth (ofGraph g markFanOut) ≤ 2 * g.concepts.size + 1 :=
    conceptsDepth_le.mpr fun _ he => (tidy_ofGraph he).depth_le
  exact Nat.add_le_add_right hdepth 1

/-- A graph that was read can be told unless a type of it ends with the suffix. -/
theorem tellable_iff_of_toGraph {outline : Outline} (h : toGraph outline = .ok g) :
    Tellable g ↔
      ∀ relation ∈ g.relationList, ∀ front, relation.triple.type ≠ front ++ RelationKey.suffix := by
  obtain ⟨hreadable, htells⟩ := toGraph_eq_ok_iff.mp h
  have hshaped := htells.shaped
  constructor
  · intro ht relation hr
    exact (ht.type_writable _ _ (ht.mem_relationList.mp hr)).ne_suffix
  intro hplain
  refine ⟨hshaped, fun id hid => ?_, fun id relation hg => ?_⟩
  · exact hreadable _ ((htells.concepts_iff id).mp hid)
  · have hr : relation ∈ g.relationList := Dict.mem_values.mpr ⟨id, hg⟩
    obtain ⟨step, -, text, above, below, key, -, hkey, htriple⟩ :=
      (htells.relations_iff relation.triple).mp (hshaped.says_iff.mp ⟨relation, hr, rfl⟩)
    refine ⟨?_, hplain relation hr⟩
    rw [htriple, RelationKey.triple_type]
    exact RelationKey.type_ne_empty hkey

end Outline

namespace Graph

/-- A graph that was read from text is read back from its own text just when no type of it ends with
the suffix for several targets and its outline is not too deep. Sixty-two concepts and fewer never
make it too deep. -/
theorem ofText_toText_iff {text : String} {g : Graph} (h : ofText text = .ok g) :
    (ofText g.toText = .ok g ↔
      (∀ relation ∈ g.relationList, ∀ front,
        relation.triple.type ≠ front ++ RelationKey.suffix) ∧
      (Outline.ofGraph g false).depth ≤ Json.Source.greatestDepth) ∧
    (Outline.ofGraph g false).depth ≤ 2 * g.concepts.size + 2 := by
  obtain ⟨outline, -, hread⟩ := exists_of_bind_eq_ok h
  have hw : g.WellFormed := (Outline.toGraph_eq_ok_iff.mp hread).2.shaped.toWellFormed
  have htellable := Outline.tellable_iff_of_toGraph hread
  obtain ⟨ha, hs⟩ := Outline.sorted_ofGraph g false
  refine ⟨?_, Outline.depth_ofGraph_le⟩
  rw [← htellable, ofText, toText, Outline.ofText_pretty ha hs]
  by_cases hd : (Outline.ofGraph g false).depth ≤ Json.Source.greatestDepth
  · rw [if_pos hd]
    constructor
    · intro hback
      exact ⟨Outline.tellable_of_toGraph hw hback, hd⟩
    · intro ht
      exact Outline.toGraph_ofGraph ht.1 false
  · rw [if_neg hd]
    exact ⟨nofun, fun ht => absurd ht.2 hd⟩

/-- A text with a marked list, a backward key and a reference that is met twice. -/
def mixedText : String :=
  "\x7b\"a\": \x7b\"-next:to_all->\": [\"b\", \"?c\"], " ++
    "\"<-owns-\": \x7b\"d\": \x7b\"-next->\": \"b\"\x7d\x7d\x7d\x7d"

/-- The graph of this text. -/
def mixed : Graph :=
  .ofStatements ["a", "b", "?c", "d"]
    [⟨"a", "next", "b"⟩, ⟨"a", "next", "?c"⟩, ⟨"d", "owns", "a"⟩, ⟨"d", "next", "b"⟩]

/-- The graph of the text is read back from its own text. -/
theorem ofText_toText_of_mixed : ofText mixedText = .ok mixed ∧ ofText mixed.toText = .ok mixed := by
  have hread : ofText mixedText = .ok mixed := by decide +kernel
  have htypes : ∀ relation ∈ mixed.relationList,
      RelationKey.Writable relation.triple.type := by decide +kernel
  have hdepth : (Outline.ofGraph mixed false).depth ≤ Json.Source.greatestDepth := by decide +kernel
  refine ⟨hread, (ofText_toText_iff hread).1.mpr ⟨fun relation hr => ?_, hdepth⟩⟩
  exact (htypes relation hr).ne_suffix

/-- A text with a key that has the suffix for several targets twice. -/
def twiceMarkedText : String := "\x7b\"a\": \x7b\"-next:to_all:to_all->\": \"b\"\x7d\x7d"

/-- The graph of this text is not read back from its own text, which has the suffix once. -/
theorem not_ofText_toText_of_twiceMarked :
    ¬∀ (text : String) (g : Graph), ofText text = .ok g → ofText g.toText = .ok g := by
  intro hall
  have hread : ofText twiceMarkedText =
      .ok (.ofStatements ["a", "b"] [⟨"a", "next:to_all", "b"⟩]) := by decide +kernel
  have hback : ofText (ofStatements ["a", "b"] [⟨"a", "next:to_all", "b"⟩]).toText =
      .ok (.ofStatements ["a", "b"] [⟨"a", "next", "b"⟩]) := by decide +kernel
  have hsame := (hall _ _ hread).symm.trans hback
  exact absurd hsame (by decide +kernel)

end Graph

end KnowledgeGraph
