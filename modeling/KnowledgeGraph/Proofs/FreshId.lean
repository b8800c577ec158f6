import KnowledgeGraph.FreshId
import KnowledgeGraph.Proofs.Graph.WellFormed

/-!
# Ids that are free

The ids of one source are all different, so of one more than a graph has concepts one is free, and passing
over those in use comes to the first that is.
-/

namespace KnowledgeGraph.IdSource

/-- The id that is drawn after so many others. -/
def nth (ids : IdSource) (count : Nat) : String := ids.stem ++ toString (ids.next + count)

/-- A source from which so many ids were drawn. -/
def after (ids : IdSource) (count : Nat) : IdSource := { ids with next := ids.next + count }

/-- Numbers are told apart by their digits. -/
theorem eq_of_toString_eq {first second : Nat} (h : toString first = toString second) :
    first = second := by
  have hback : ∀ number : Nat, Nat.ofDigitChars 10 (toString number).toList 0 = number := by
    intro number
    rw [Nat.toString_eq_repr, Nat.toList_repr, Nat.ofDigitChars_toDigits (by decide) (by decide)]
  rw [← hback first, h, hback second]

/-- Behind one stem numbers give different ids. -/
theorem numbered_injective (stem : String) :
    Function.Injective fun number : Nat => stem ++ toString number := by
  intro first second h
  exact eq_of_toString_eq ((String.append_right_inj stem).mp h)

/-- The ids of a source are different. -/
theorem nth_injective (ids : IdSource) : Function.Injective ids.nth := by
  intro first second h
  exact Nat.add_left_cancel (numbered_injective ids.stem h)

/-- The next ids are those after the first. -/
theorem nth_after (ids : IdSource) (first count : Nat) :
    (ids.after first).nth count = ids.nth (first + count) := by
  rw [nth, nth, after, Nat.add_assoc]

/-- Ids are drawn one after the other. -/
theorem after_after (ids : IdSource) (first count : Nat) :
    (ids.after first).after count = ids.after (first + count) := by
  rw [after, after, after, Nat.add_assoc]

/-- An id in use is passed over. -/
theorem drawFreeWithin_succ (tries : Nat) (ids : IdSource) (g : Graph) :
    drawFreeWithin (tries + 1) ids g =
      if g.hasConcept (ids.nth 0) then drawFreeWithin tries (ids.after 1) g
      else (ids.nth 0, ids.after 1) := rfl

/-- Ids in use are passed over up to the first that is free, or to the last that may be tried. -/
theorem exists_of_drawFreeWithin (tries : Nat) (ids : IdSource) (g : Graph) :
    ∃ count ≤ tries, (∀ earlier < count, g.hasConcept (ids.nth earlier) = true) ∧
      (g.hasConcept (ids.nth count) = true → count = tries) ∧
      drawFreeWithin tries ids g = (ids.nth count, ids.after (count + 1)) := by
  induction tries generalizing ids with
  | zero => exact ⟨0, Nat.le_refl 0, nofun, fun _ => rfl, rfl⟩
  | succ tries ih =>
    rw [drawFreeWithin_succ]
    by_cases hused : g.hasConcept (ids.nth 0) = true
    · obtain ⟨count, hle, hearlier, hlast, heq⟩ := ih (ids.after 1)
      simp only [nth_after, after_after, Nat.add_comm 1] at hearlier hlast heq
      refine ⟨count + 1, Nat.succ_le_succ hle, fun earlier hlt => ?_, fun h => ?_, ?_⟩
      · cases earlier with
        | zero => exact hused
        | succ earlier => exact hearlier earlier (Nat.lt_of_succ_lt_succ hlt)
      · rw [hlast h]
      · rw [if_pos hused, heq]
    · exact ⟨0, Nat.zero_le _, nofun, fun h => absurd h hused, if_neg hused⟩

/-- One of the ids up to the number of concepts is not in use. -/
theorem exists_free (ids : IdSource) (g : Graph) :
    ∃ count ≤ g.concepts.size, g.hasConcept (ids.nth count) = false := by
  by_contra hnone
  push Not at hnone
  have hnodup : ((List.range (g.concepts.size + 1)).map ids.nth).Nodup :=
    List.nodup_range.map ids.nth_injective
  have hused : (List.range (g.concepts.size + 1)).map ids.nth ⊆ g.concepts.keys := by
    intro id hid
    obtain ⟨count, hcount, rfl⟩ := List.mem_map.mp hid
    have hle : count ≤ g.concepts.size := Nat.le_of_lt_succ (List.mem_range.mp hcount)
    exact Dict.mem_keys.mpr (eq_true_of_ne_false (hnone count hle))
  have hlength := (List.subperm_of_subset hnodup hused).length_le
  rw [List.length_map, List.length_range, Dict.length_keys] at hlength
  omega

/-- The id that is drawn is the first of the next ids that no concept of the graph has, and those up to
it are used up. -/
theorem drawFree_spec (ids : IdSource) (g : Graph) :
    ∃ count ≤ g.concepts.size, (∀ earlier < count, g.hasConcept (ids.nth earlier) = true) ∧
      g.hasConcept (ids.nth count) = false ∧
      ids.drawFree g = (ids.nth count, ids.after (count + 1)) := by
  obtain ⟨count, hle, hearlier, hlast, heq⟩ := exists_of_drawFreeWithin g.concepts.size ids g
  refine ⟨count, hle, hearlier, Bool.eq_false_iff.mpr fun hused => ?_, heq⟩
  obtain ⟨free, hfree, hnot⟩ := exists_free ids g
  have hall : g.hasConcept (ids.nth free) = true := by
    rcases Nat.lt_or_eq_of_le (hlast hused ▸ hfree) with hlt | rfl
    · exact hearlier free hlt
    · exact hused
  rw [hnot] at hall
  cases hall

/-- The id that is drawn is free. -/
theorem hasConcept_drawFree (ids : IdSource) (g : Graph) :
    g.hasConcept (ids.drawFree g).1 = false := by
  obtain ⟨count, -, -, hfree, heq⟩ := drawFree_spec ids g
  rw [heq]
  exact hfree

end KnowledgeGraph.IdSource
