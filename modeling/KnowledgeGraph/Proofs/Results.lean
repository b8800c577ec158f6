/-!
# Results that may be faults

A computation that comes to its end came to the end of each of its steps. These lemmas take such a
computation apart, so that no proof about one has to follow the faults.
-/

namespace KnowledgeGraph

variable {ε α β : Type} {result : β}

/-- A step and what follows it succeed when the step does and what follows its result does. -/
theorem exists_of_bind_eq_ok {first : Except ε α} {next : α → Except ε β}
    (h : first >>= next = .ok result) : ∃ middle, first = .ok middle ∧ next middle = .ok result := by
  cases first with
  | ok middle => exact ⟨middle, rfl, h⟩
  | error fault => cases h

/-- A step and what follows it fail when the step does or what follows its result does. -/
theorem cases_of_bind_eq_error {first : Except ε α} {next : α → Except ε β} {fault : ε}
    (h : first >>= next = .error fault) :
    first = .error fault ∨ ∃ middle, first = .ok middle ∧ next middle = .error fault := by
  cases first with
  | ok middle => exact .inr ⟨middle, rfl, h⟩
  | error earlier =>
    cases h
    exact .inl rfl

/-- A function of a result succeeds on what the result is. -/
theorem exists_of_map_eq_ok {f : α → β} {original : Except ε α} (h : original.map f = .ok result) :
    ∃ value, original = .ok value ∧ f value = result := by
  cases original with
  | ok value => exact ⟨value, rfl, Except.ok.inj h⟩
  | error fault => cases h

/-- A result whose fault is told in other words is the result. -/
theorem eq_ok_of_mapError {f : ε → α} {outcome : Except ε β} (h : outcome.mapError f = .ok result) :
    outcome = .ok result := by
  cases outcome with
  | ok value => exact congrArg Except.ok (Except.ok.inj h)
  | error fault => cases h

/-- A result that is there is the result. -/
theorem eq_ok_of_toOption {outcome : Except ε β} (h : outcome.toOption = some result) :
    outcome = .ok result := by
  cases outcome with
  | ok value => exact congrArg Except.ok (Option.some.inj h)
  | error fault => cases h

/-- What follows a result may be changed by a function when it is the same change of what follows. -/
theorem map_bind_of_forall {γ δ : Type} {f : α → γ} {g : β → δ} {first : Except ε α}
    {next : α → Except ε β} {other : γ → Except ε δ}
    (h : ∀ middle, other (f middle) = (next middle).map g) :
    first.map f >>= other = (first >>= next).map g := by
  cases first with
  | ok middle => exact h middle
  | error fault => rfl

/-- A mapping that fails fails for a member. -/
theorem exists_of_mapM_eq_error {f : α → Except ε β} {list : List α} {fault : ε}
    (h : list.mapM f = .error fault) : ∃ member ∈ list, f member = .error fault := by
  induction list with
  | nil => cases h
  | cons head rest ih =>
    rw [List.mapM_cons] at h
    cases hf : f head with
    | error first =>
      rw [hf] at h
      cases h
      exact ⟨head, List.mem_cons_self, hf⟩
    | ok value =>
      cases hm : rest.mapM f with
      | error later =>
        rw [hf, hm] at h
        cases h
        obtain ⟨member, hr, hfault⟩ := ih hm
        exact ⟨member, List.mem_cons_of_mem _ hr, hfault⟩
      | ok others =>
        rw [hf, hm] at h
        cases h

/-- A mapping that succeeds succeeds for each member, and its results are those of the members. -/
theorem mem_of_mapM_eq_ok {f : α → Except ε β} {list : List α} {results : List β}
    (h : list.mapM f = .ok results) :
    (∀ result ∈ results, ∃ member ∈ list, f member = .ok result) ∧
      ∀ member ∈ list, ∃ result ∈ results, f member = .ok result := by
  induction list generalizing results with
  | nil =>
    cases h
    exact ⟨nofun, nofun⟩
  | cons head rest ih =>
    rw [List.mapM_cons] at h
    obtain ⟨first, hf, h⟩ := exists_of_bind_eq_ok h
    obtain ⟨others, hm, h⟩ := exists_of_bind_eq_ok h
    cases h
    obtain ⟨hresults, hmembers⟩ := ih hm
    constructor
    · intro result hr
      rcases List.mem_cons.mp hr with rfl | hr
      · exact ⟨head, List.mem_cons_self, hf⟩
      · obtain ⟨member, hmem, hfm⟩ := hresults result hr
        exact ⟨member, List.mem_cons_of_mem _ hmem, hfm⟩
    · intro member hmem
      rcases List.mem_cons.mp hmem with rfl | hmem
      · exact ⟨first, List.mem_cons_self, hf⟩
      · obtain ⟨result, hr, hfr⟩ := hmembers member hmem
        exact ⟨result, List.mem_cons_of_mem _ hr, hfr⟩

/-- A mapping succeeds if it does for each member, and its results tell the members they come from. -/
theorem exists_of_mapM_of_forall {f : α → Except ε β} {back : β → α} {good : β → Prop} {list : List α}
    (h : ∀ member ∈ list, ∃ result, f member = .ok result ∧ back result = member ∧ good result) :
    ∃ results, list.mapM f = .ok results ∧ results.map back = list ∧
      ∀ result ∈ results, good result := by
  induction list with
  | nil => exact ⟨[], rfl, rfl, nofun⟩
  | cons head rest ih =>
    obtain ⟨⟨first, hf, hback, hgood⟩, hrest⟩ := List.forall_mem_cons.mp h
    obtain ⟨others, hm, hbacks, hgoods⟩ := ih hrest
    refine ⟨first :: others, ?_, ?_, List.forall_mem_cons.mpr ⟨hgood, hgoods⟩⟩
    · rw [List.mapM_cons, hf, hm]
      rfl
    · rw [List.map_cons, hback, hbacks]

/-- A mapping that succeeds on a list succeeds on a rearrangement of it, and rearranges the results. -/
theorem exists_perm_of_mapM_eq_ok {f : α → Except ε β} {list other : List α} {results : List β}
    (hp : list.Perm other) (h : list.mapM f = .ok results) :
    ∃ rearranged, other.mapM f = .ok rearranged ∧ results.Perm rearranged := by
  induction hp generalizing results with
  | nil => exact ⟨results, h, .refl _⟩
  | cons head _ ih =>
    rw [List.mapM_cons] at h
    obtain ⟨first, hf, h⟩ := exists_of_bind_eq_ok h
    obtain ⟨others, hm, h⟩ := exists_of_bind_eq_ok h
    cases h
    obtain ⟨rearranged, hr, hperm⟩ := ih hm
    refine ⟨first :: rearranged, ?_, hperm.cons first⟩
    rw [List.mapM_cons, hf, hr]
    rfl
  | swap head next rest =>
    rw [List.mapM_cons, List.mapM_cons] at h
    obtain ⟨second, hs, h⟩ := exists_of_bind_eq_ok h
    obtain ⟨others, hm, h⟩ := exists_of_bind_eq_ok h
    obtain ⟨first, hf, hm⟩ := exists_of_bind_eq_ok hm
    obtain ⟨remaining, hremaining, hm⟩ := exists_of_bind_eq_ok hm
    cases hm
    cases h
    refine ⟨first :: second :: remaining, ?_, .swap first second remaining⟩
    rw [List.mapM_cons, List.mapM_cons, hf, hs, hremaining]
    rfl
  | trans _ _ ih ih' =>
    obtain ⟨middle, hm, hperm⟩ := ih h
    obtain ⟨rearranged, hr, hperm'⟩ := ih' hm
    exact ⟨rearranged, hr, hperm.trans hperm'⟩

end KnowledgeGraph
