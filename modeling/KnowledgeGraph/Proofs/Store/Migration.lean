import KnowledgeGraph.Proofs.Results
import KnowledgeGraph.Store.Tables
import Mathlib.Data.List.Range

/-!
# Migrations

A migration takes the steps after the recorded version one by one and records each version right after its
step. A journal beside the store tells what was tried and what was recorded. Main statement: the journal
has each step once, in order, up to the target or to the first step that fails; the version that is
recorded then is the last one whose step did not fail, so a second migration tries nothing that was done,
and the graph of a store in tables stays as it is.
-/

namespace KnowledgeGraph

namespace Schema.Migratable

variable {σ : Type} {kind : Migratable σ} {holds : σ → Prop} {store : σ}

/-- What each step and each recording of a version keeps holds after any number of steps, also where one
fails. -/
theorem advance_keeps (hstep : ∀ version store, holds store → holds (kind.step version store).1)
    (hrecord : ∀ version store, holds store → holds (kind.record version store))
    (steps version : Nat) (h : holds store) : holds (kind.advance steps version store).1 := by
  induction steps generalizing version store with
  | zero => exact h
  | succ steps ih =>
    have hnext := hstep (version + 1) store h
    rw [advance]
    split
    next next hs =>
      rw [hs] at hnext
      exact ih _ (hrecord _ _ hnext)
    next next fault hs =>
      rw [hs] at hnext
      exact hnext

/-- What each step and each recording of a version keeps holds after a migration, also where it fails. -/
theorem migrateTo_keeps (hstep : ∀ version store, holds store → holds (kind.step version store).1)
    (hrecord : ∀ version store, holds store → holds (kind.record version store))
    (target : Nat) (h : holds store) : holds (kind.migrateTo target store).1 := by
  unfold migrateTo
  simp only
  split
  next => exact h
  next => exact advance_keeps hstep hrecord _ _ h

/-- What is done to a store. -/
inductive Event where
  /-- The step to a version is tried, and fails if there is a fault. -/
  | step (version : Nat) (fault : Option StoreFault)
  /-- A version is recorded. -/
  | record (version : Nat)
  deriving DecidableEq

/-- The version that is to be reached or is recorded. -/
def Event.version : Event → Nat
  | .step version _ => version
  | .record version => version

/-- A kind of store beside which a journal is kept of what is done to it. -/
def journaled (kind : Migratable σ) : Migratable (σ × List Event) where
  version kept := kind.version kept.1
  record version kept := (kind.record version kept.1, kept.2 ++ [.record version])
  step version kept :=
    let (next, fault) := kind.step version kept.1
    ((next, kept.2 ++ [.step version fault]), fault)

/-- The journal of a step that does not fail: its version is recorded right after it. -/
def taken (version : Nat) : List Event := [.step version none, .record version]

/-- The journal of a migration from one version to another one, and of the step behind this if it fails. -/
def climb (version reached : Nat) (fault : Option StoreFault) : List Event :=
  (List.range' (version + 1) (reached - version)).flatMap taken ++
    fault.toList.map fun cause => .step (reached + 1) (some cause)

section Journals

variable {version reached : Nat} {fault : Option StoreFault}

/-- Where no step was taken there is at most one that failed. -/
theorem climb_self (version : Nat) (fault : Option StoreFault) :
    climb version version fault = fault.toList.map fun cause => .step (version + 1) (some cause) := by
  rw [climb, Nat.sub_self, List.range'_zero, List.flatMap_nil, List.nil_append]

/-- The journal begins with the first step that is taken and goes on from its version. -/
theorem climb_of_lt (h : version < reached) :
    climb version reached fault = taken (version + 1) ++ climb (version + 1) reached fault := by
  have hsteps : reached - version = reached - (version + 1) + 1 := by omega
  rw [climb, climb, hsteps, List.range'_succ, List.flatMap_cons, List.append_assoc]

/-- The first thing that is tried is the step to the next version. -/
theorem exists_climb_eq_cons (hle : version ≤ reached) (h : version < reached ∨ fault ≠ none) :
    ∃ outcome rest, climb version reached fault = .step (version + 1) outcome :: rest := by
  rcases Nat.lt_or_eq_of_le hle with hlt | rfl
  · exact ⟨none, _, climb_of_lt hlt⟩
  · obtain ⟨cause, rfl⟩ := Option.ne_none_iff_exists'.mp (h.resolve_left (Nat.lt_irrefl _))
    exact ⟨some cause, [], climb_self version (some cause)⟩

/-- No version behind the target is tried or recorded. -/
theorem version_le_of_mem_climb {target : Nat} {event : Event} (hle : reached ≤ target)
    (hfault : fault = none ↔ reached = target) (he : event ∈ climb version reached fault) :
    event.version ≤ target := by
  rcases List.mem_append.mp he with he | he
  · obtain ⟨next, hnext, he⟩ := List.mem_flatMap.mp he
    have hsame : event.version = next := by
      simp only [taken, List.mem_cons, List.not_mem_nil, or_false] at he
      rcases he with rfl | rfl <;> rfl
    have hrange := List.mem_range'_1.mp hnext
    omega
  · obtain ⟨cause, hcause, rfl⟩ := List.mem_map.mp he
    rw [Option.mem_toList] at hcause
    have hbelow : reached ≠ target := fun same => by
      rw [hfault.mpr same] at hcause
      cases hcause
    change reached + 1 ≤ target
    omega

end Journals

/-- A kind of store reads back the version that was recorded last, as far as versions have 32 bits. A step
that fails records none. -/
structure ReadsBack (kind : Migratable σ) : Prop where
  /-- A version that is recorded is read back. -/
  version_record : ∀ version < UInt32.size, ∀ store, kind.version (kind.record version store) = version
  /-- A step that fails leaves the version that is recorded. -/
  version_step : ∀ version store fault, (kind.step version store).2 = some fault →
    kind.version (kind.step version store).1 = kind.version store

/-- A step that does not fail is recorded, and the migration goes on from its version. -/
theorem advance_of_none {steps version : Nat} (h : (kind.step (version + 1) store).2 = none) :
    kind.advance (steps + 1) version store =
      kind.advance steps (version + 1) (kind.record (version + 1) (kind.step (version + 1) store).1) := by
  rw [advance]
  split
  next next hs => rw [hs]
  next next fault hs =>
    rw [hs] at h
    cases h

/-- A step that fails ends the migration. -/
theorem advance_of_some {steps version : Nat} {fault : StoreFault}
    (h : (kind.step (version + 1) store).2 = some fault) :
    kind.advance (steps + 1) version store = ((kind.step (version + 1) store).1, some fault) := by
  rw [advance]
  split
  next next hs =>
    rw [hs] at h
    cases h
  next next other hs =>
    rw [hs] at h ⊢
    rw [← Option.some.inj h]

/-- The journal has a step that does not fail and the record of its version. -/
theorem journaled_of_none {version : Nat} {journal : List Event}
    (h : (kind.step version store).2 = none) :
    kind.journaled.record version (kind.journaled.step version (store, journal)).1 =
        (kind.record version (kind.step version store).1, journal ++ taken version) ∧
      (kind.journaled.step version (store, journal)).2 = none := by
  refine ⟨?_, h⟩
  change (_, journal ++ [.step version (kind.step version store).2] ++ [.record version]) = _
  rw [h, List.append_assoc]
  rfl

/-- The journal has a step that fails. -/
theorem journaled_of_some {version : Nat} {journal : List Event} {fault : StoreFault}
    (h : (kind.step version store).2 = some fault) :
    (kind.journaled.step version (store, journal)).1 =
        ((kind.step version store).1, journal ++ [.step version (some fault)]) ∧
      (kind.journaled.step version (store, journal)).2 = some fault := by
  refine ⟨?_, h⟩
  change (_, journal ++ [.step version (kind.step version store).2]) = _
  rw [h]

/-- Steps are taken one after the other, and each is recorded, up to the last one or to one that fails. -/
theorem ReadsBack.exists_advance (h : kind.ReadsBack) (steps : Nat) (store : σ) (journal : List Event)
    (hfit : kind.version store + steps < UInt32.size) :
    ∃ reached after fault, kind.version store ≤ reached ∧ reached ≤ kind.version store + steps ∧
      (fault = none ↔ reached = kind.version store + steps) ∧ kind.version after = reached ∧
      kind.advance steps (kind.version store) store = (after, fault) ∧
      kind.journaled.advance steps (kind.version store) (store, journal) =
        ((after, journal ++ climb (kind.version store) reached fault), fault) := by
  induction steps generalizing store journal with
  | zero =>
    refine ⟨kind.version store, store, none, Nat.le_refl _, Nat.le_refl _, iff_of_true rfl rfl, rfl, rfl, ?_⟩
    rw [climb_self, Option.toList_none, List.map_nil, List.append_nil]
    rfl
  | succ steps ih =>
    cases ho : (kind.step (kind.version store + 1) store).2 with
    | none =>
      -- The version that is read next is the one just recorded, so the rest goes on from it.
      have hversion := h.version_record (kind.version store + 1) (by omega)
        (kind.step (kind.version store + 1) store).1
      obtain ⟨reached, after, fault, hle, hreached, hfault, hafter, hplain, hkept⟩ :=
        ih (kind.record (kind.version store + 1) (kind.step (kind.version store + 1) store).1)
          (journal ++ taken (kind.version store + 1)) (by omega)
      rw [hversion] at hle hreached hfault hplain hkept
      have hsum : kind.version store + 1 + steps = kind.version store + (steps + 1) := by omega
      have hlt : kind.version store < reached := by omega
      refine ⟨reached, after, fault, by omega, by omega, hsum ▸ hfault, hafter, ?_, ?_⟩
      · rw [advance_of_none ho, hplain]
      · rw [advance_of_none (journaled_of_none ho).2, (journaled_of_none ho).1, hkept, climb_of_lt hlt,
          List.append_assoc]
    | some cause =>
      refine ⟨kind.version store, _, some cause, Nat.le_refl _, by omega, ?_,
        h.version_step _ _ cause ho, advance_of_some ho, ?_⟩
      · exact iff_of_false nofun (by omega)
      · rw [advance_of_some (journaled_of_some ho).2, (journaled_of_some ho).1, climb_self]
        rfl

/-- A migration comes to a version and leaves a store in which it is recorded: every step from the version
of the store up to it is taken, and it is the target, or the step behind it fails. -/
structure Climbs (kind : Migratable σ) (target : Nat) (store : σ) (reached : Nat) (after : σ)
    (fault : Option StoreFault) : Prop where
  /-- The migration does not fall behind the version of the store. -/
  le_reached : kind.version store ≤ reached
  /-- It does not go beyond the target. -/
  reached_le : reached ≤ target
  /-- It comes to the target unless a step fails. -/
  fault_iff : fault = none ↔ reached = target
  /-- The version that it comes to is recorded. -/
  version_after : kind.version after = reached
  /-- It leaves the store and the fault. -/
  migrateTo_eq : kind.migrateTo target store = (after, fault)
  /-- The journal has each step once, in order, with its record right behind it. -/
  journal_eq : kind.journaled.migrateTo target (store, []) =
    ((after, climb (kind.version store) reached fault), fault)

/-- A store of a later version is refused and nothing is done to it. -/
theorem migrateTo_of_lt {target : Nat} (h : target < kind.version store) :
    kind.migrateTo target store =
      (store, some (.migration (.newer (kind.version store) target))) := by
  unfold migrateTo
  exact if_pos h

/-- A store of a version up to the target is migrated by the steps between them. -/
theorem migrateTo_of_le {target : Nat} (h : kind.version store ≤ target) :
    kind.migrateTo target store =
      kind.advance (target - kind.version store) (kind.version store) store := by
  unfold migrateTo
  exact if_neg (Nat.not_lt.mpr h)

/-- A store of a version up to the target is migrated step by step. -/
theorem ReadsBack.exists_climbs (h : kind.ReadsBack) {target : Nat} (hle : kind.version store ≤ target)
    (ht : target < UInt32.size) : ∃ reached after fault, kind.Climbs target store reached after fault := by
  have hsteps : kind.version store + (target - kind.version store) = target := by omega
  obtain ⟨reached, after, fault, hreached, hbound, hfault, hafter, heq, hjournal⟩ :=
    h.exists_advance (target - kind.version store) store [] (by omega)
  rw [hsteps] at hbound hfault
  have hkept : kind.journaled.version (store, []) ≤ target := hle
  exact ⟨reached, after, fault, hreached, hbound, hfault, hafter, (migrateTo_of_le hle).trans heq,
    (migrateTo_of_le hkept).trans hjournal⟩

/-- A migration that came to the target has nothing left to do. -/
theorem Climbs.again_of_none {target reached : Nat} {after : σ} {fault : Option StoreFault}
    (h : kind.Climbs target store reached after fault) (hnone : fault = none) :
    kind.journaled.migrateTo target (after, []) = ((after, []), none) := by
  have hversion : kind.journaled.version (after, []) = target :=
    h.version_after.trans (h.fault_iff.mp hnone)
  rw [migrateTo_of_le (Nat.le_of_eq hversion), hversion, Nat.sub_self]
  rfl

/-- A migration that failed goes on with the step that failed. -/
theorem Climbs.again_of_ne_none {target reached : Nat} {after : σ} {fault : Option StoreFault}
    (h : kind.Climbs target store reached after fault) (hback : kind.ReadsBack)
    (ht : target < UInt32.size) (hsome : fault ≠ none) :
    ∃ outcome rest, (kind.journaled.migrateTo target (after, [])).1.2 =
      .step (reached + 1) outcome :: rest := by
  have hbelow : reached ≠ target := fun same => hsome (h.fault_iff.mpr same)
  have hle := h.reached_le
  rw [← h.version_after] at hbelow hle ⊢
  obtain ⟨reached', after', fault', hagain⟩ := hback.exists_climbs hle ht
  rw [hagain.journal_eq]
  refine exists_climb_eq_cons hagain.le_reached ?_
  by_cases hnone : fault' = none
  · have hreached := hagain.fault_iff.mp hnone
    exact .inl (by omega)
  · exact .inr hnone

end Schema.Migratable

namespace Tables

open Schema.Migratable (migrateTo_keeps)

/-- The step to a version changes tables as a whole or not at all. -/
theorem step_migratable (version : Nat) (tables : Tables) :
    (∃ next, runStep version tables = .ok next ∧ migratable.step version tables = (next, none)) ∨
      ∃ fault, migratable.step version tables = (tables, some fault) := by
  simp only [migratable]
  cases runStep version tables with
  | ok next => exact .inl ⟨next, rfl, rfl⟩
  | error fault => exact .inr ⟨fault, rfl⟩

/-- The step to a version leaves the rows of concepts and relations. -/
theorem rows_of_runStep {version : Nat} {tables next : Tables} (h : runStep version tables = .ok next) :
    next.concepts = tables.concepts ∧ next.relations = tables.relations := by
  unfold runStep at h
  split at h
  next =>
    cases h
    exact ⟨rfl, rfl⟩
  next =>
    obtain ⟨rows, -, h⟩ := exists_of_bind_eq_ok h
    cases h
    exact ⟨rfl, rfl⟩
  next => cases h

/-- Tables read back the version that was recorded last. -/
theorem readsBack_migratable : migratable.ReadsBack where
  version_record _ _ _ := rfl
  version_step version tables fault h := by
    rcases step_migratable version tables with ⟨next, -, hstep⟩ | ⟨cause, hstep⟩
    · rw [hstep] at h
      cases h
    · rw [hstep]

/-- A migration leaves the rows of concepts and relations, also where it fails. -/
theorem rows_migrateTo (tables : Tables) (target : Nat) :
    (tables.migrateTo target).1.concepts = tables.concepts ∧
      (tables.migrateTo target).1.relations = tables.relations := by
  refine @migrateTo_keeps _ migratable
    (fun next => next.concepts = tables.concepts ∧ next.relations = tables.relations) tables
    (fun version store hs => ?_) (fun _ _ hs => hs) target ⟨rfl, rfl⟩
  rcases step_migratable version store with ⟨next, hnext, hstep⟩ | ⟨fault, hstep⟩
  · obtain ⟨hconcepts, hrelations⟩ := rows_of_runStep hnext
    rw [hstep]
    exact ⟨hconcepts.trans hs.1, hrelations.trans hs.2⟩
  · rw [hstep]
    exact hs

/-- A migration leaves the graph of the rows. -/
theorem load_migrateTo (tables : Tables) (target : Nat) :
    (tables.migrateTo target).1.load = tables.load := by
  obtain ⟨hconcepts, hrelations⟩ := tables.rows_migrateTo target
  unfold load
  rw [hconcepts, hrelations]

end Tables

namespace Schema.Migratable

/-- A store of a later version is refused and nothing is done to it. Any other store is migrated by the
steps behind its version: each is tried once, in order, and its version is recorded right after it, up to
the target or to the first step that fails, which leaves the version before it; no version has more than
32 bits. A second migration has nothing left to do, or goes on with the step that failed. Tables are such a
store, and a migration leaves their graph. -/
theorem migrates_step_by_step :
    (∀ (σ : Type) (kind : Migratable σ), kind.ReadsBack → ∀ (store : σ) (target : Nat),
      target < UInt32.size →
      (target < kind.version store →
        kind.migrateTo target store =
            (store, some (.migration (.newer (kind.version store) target))) ∧
          kind.journaled.migrateTo target (store, []) =
            ((store, []), some (.migration (.newer (kind.version store) target)))) ∧
      (kind.version store ≤ target → ∃ reached after fault,
        kind.Climbs target store reached after fault ∧
          (∀ event ∈ climb (kind.version store) reached fault, event.version < UInt32.size) ∧
          (fault = none → kind.journaled.migrateTo target (after, []) = ((after, []), none)) ∧
          (fault ≠ none → ∃ outcome rest, (kind.journaled.migrateTo target (after, [])).1.2 =
            .step (reached + 1) outcome :: rest))) ∧
    Tables.migratable.ReadsBack ∧
    ∀ (tables : Tables) (target : Nat), (tables.migrateTo target).1.load = tables.load := by
  refine ⟨fun σ kind hback store target ht => ⟨fun hlt => ?_, fun hle => ?_⟩,
    Tables.readsBack_migratable, Tables.load_migrateTo⟩
  · have hkept : target < kind.journaled.version (store, []) := hlt
    exact ⟨migrateTo_of_lt hlt, migrateTo_of_lt hkept⟩
  · obtain ⟨reached, after, fault, hclimbs⟩ := hback.exists_climbs hle ht
    refine ⟨reached, after, fault, hclimbs, fun event he => ?_, hclimbs.again_of_none,
      hclimbs.again_of_ne_none hback ht⟩
    exact Nat.lt_of_le_of_lt (version_le_of_mem_climb hclimbs.reached_le hclimbs.fault_iff he) ht

/-- A store that keeps a version of 32 bits and whether it was warned. The step to the greatest version
fails at first and warns the store. -/
def wary : Migratable (UInt32 × Bool) where
  version store := store.1.toNat
  record version store := (UInt32.ofNat version, store.2)
  step version store :=
    if version + 1 = UInt32.size && !store.2 then
      ((store.1, true), some (.migration (.noStep version)))
    else (store, none)

/-- The wary store reads back its version. -/
theorem readsBack_wary : wary.ReadsBack where
  version_record version hv store := UInt32.toNat_ofNat_of_lt' hv
  version_step version store fault h := by
    simp only [wary] at h ⊢
    split
    next => rfl
    next => rfl

/-- From two versions before the greatest one a first migration takes a step and fails at the next one. A
second one goes on with this and takes it, a third one does nothing, and the version before is refused. -/
theorem migrates_step_by_step_of_wary : wary.ReadsBack ∧
    wary.journaled.migrateTo 4294967295 ((4294967293, false), []) =
      (((4294967294, true), [.step 4294967294 none, .record 4294967294,
        .step 4294967295 (some (.migration (.noStep 4294967295)))]),
        some (.migration (.noStep 4294967295))) ∧
    (∃ reached after fault, wary.Climbs 4294967295 (4294967294, true) reached after fault ∧
      fault = none ∧ wary.journaled.migrateTo 4294967295 (after, []) = ((after, []), none)) ∧
    wary.journaled.migrateTo 4294967294 ((4294967295, true), []) =
      (((4294967295, true), []), some (.migration (.newer 4294967295 4294967294))) := by
  have hfirst : wary.journaled.migrateTo 4294967295 ((4294967293, false), []) =
      (((4294967294, true), [.step 4294967294 none, .record 4294967294,
        .step 4294967295 (some (.migration (.noStep 4294967295)))]),
        some (.migration (.noStep 4294967295))) := by decide +kernel
  have hsecond : (wary.migrateTo 4294967295 (4294967294, true)).2 = none := by decide +kernel
  obtain ⟨hall, -, -⟩ := migrates_step_by_step
  obtain ⟨reached, after, fault, hclimbs, -, hnone, -⟩ :=
    (hall _ wary readsBack_wary (4294967294, true) 4294967295 (by decide)).2 (by decide)
  have hfault : fault = none := by
    rw [hclimbs.migrateTo_eq] at hsecond
    exact hsecond
  have hrefused := (hall _ wary readsBack_wary (4294967295, true) 4294967294 (by decide)).1 (by decide)
  exact ⟨readsBack_wary, hfirst, ⟨reached, after, fault, hclimbs, hfault, hnone hfault⟩, hrefused.2⟩

end Schema.Migratable

end KnowledgeGraph
