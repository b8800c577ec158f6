import KnowledgeGraph.Json.Reread
import KnowledgeGraph.Proofs.Dict

/-!
# How deep a value goes

Whether the reader gives the value of a text is decided by how deep the value goes, and by nothing else in
it. What is written as text and read again goes as deep as it did, and two objects that are united go no
deeper than the deeper one.
-/

namespace KnowledgeGraph.Json

variable {depth : Nat}

/-- Items go no deeper than a depth when none of them does. -/
theorem itemsNesting_le {items : List Json} :
    itemsNesting items ≤ depth ↔ ∀ item ∈ items, item.nesting ≤ depth := by
  induction items with
  | nil => simp [itemsNesting]
  | cons item items ih => rw [itemsNesting, Nat.max_le, ih, List.forall_mem_cons]

/-- Members go no deeper than a depth when no value of them does. -/
theorem membersNesting_le {members : List (String × Json)} :
    membersNesting members ≤ depth ↔ ∀ member ∈ members, member.2.nesting ≤ depth := by
  induction members with
  | nil => simp [membersNesting]
  | cons member members ih =>
    obtain ⟨key, value⟩ := member
    rw [membersNesting, Nat.max_le, ih, List.forall_mem_cons]

/-- An object goes one deeper than its values. -/
theorem nesting_ofDict_le {members : Dict Json} :
    (ofDict members).nesting ≤ depth + 1 ↔
      ∀ key value, members.get? key = some value → value.nesting ≤ depth := by
  rw [ofDict, nesting, Nat.add_le_add_iff_right, membersNesting_le, Prod.forall]
  simp only [Dict.mem_entries]

/-- An object whose values are changed goes as deep as it did when each of them does. -/
theorem nesting_ofDict_map {f : Json → Json} (hf : ∀ value, (f value).nesting = value.nesting)
    (members : Dict Json) : (ofDict (members.map f)).nesting = (ofDict members).nesting := by
  have hmembers : ∀ entries : List (String × Json),
      membersNesting (entries.map fun entry => (entry.1, f entry.2)) = membersNesting entries := by
    intro entries
    induction entries with
    | nil => rfl
    | cons entry entries ih => rw [List.map_cons, membersNesting, membersNesting, hf, ih]
  exact congrArg (· + 1) (hmembers members.entries)

/-- Two objects together go no deeper than both do. -/
theorem nesting_extend_le {members other : Dict Json} (hm : (ofDict members).nesting ≤ depth)
    (ho : (ofDict other).nesting ≤ depth) : (ofDict (members.extend other)).nesting ≤ depth := by
  cases depth with
  | zero => exact absurd hm (Nat.not_succ_le_zero _)
  | succ depth =>
    rw [nesting_ofDict_le] at hm ho ⊢
    intro key value hv
    rw [Dict.get?_extend, Option.or_eq_some_iff] at hv
    rcases hv with hv | ⟨-, hv⟩
    · exact ho key value hv
    · exact hm key value hv

mutual

/-- A value whose leaves are changed to leaves goes as deep as it did. -/
theorem nesting_mapLeaves {f : Json → Json} (hf : ∀ leaf, leaf.nesting = 0 → (f leaf).nesting = 0) :
    ∀ value : Json, (value.mapLeaves f).nesting = value.nesting
  | .null | .bool _ | .number _ | .string _ => by
    rw [mapLeaves]
    · exact hf _ rfl
    · exact nofun
    · exact nofun
  | .array items => by rw [mapLeaves, nesting, nesting, itemsNesting_mapItems hf items]
  | .object members => by rw [mapLeaves, nesting, nesting, membersNesting_mapMembers hf members]

/-- So do items. -/
theorem itemsNesting_mapItems {f : Json → Json}
    (hf : ∀ leaf, leaf.nesting = 0 → (f leaf).nesting = 0) :
    ∀ items, itemsNesting (mapItems f items) = itemsNesting items
  | [] => rfl
  | item :: items => by
    rw [mapItems, itemsNesting, itemsNesting, nesting_mapLeaves hf item,
      itemsNesting_mapItems hf items]

/-- So do members. -/
theorem membersNesting_mapMembers {f : Json → Json}
    (hf : ∀ leaf, leaf.nesting = 0 → (f leaf).nesting = 0) :
    ∀ members, membersNesting (mapMembers f members) = membersNesting members
  | [] => rfl
  | (key, value) :: members => by
    rw [mapMembers, membersNesting, membersNesting, nesting_mapLeaves hf value,
      membersNesting_mapMembers hf members]

end

/-- What is written and read again goes as deep as it did. -/
theorem nesting_reread (value : Json) : value.reread.nesting = value.nesting := by
  refine nesting_mapLeaves (fun leaf hleaf => ?_) value
  cases leaf <;> exact hleaf

mutual

/-- The reader gives the value of a form at a depth just when the value goes no deeper. -/
theorem isSome_value?_iff : ∀ (value : Json) (depth : Nat),
    (value.source.value? depth).isSome = true ↔ value.nesting ≤ depth
  | .null, depth | .bool _, depth | .number _, depth | .string _, depth =>
    iff_of_true rfl (Nat.zero_le depth)
  | .array items, depth => by
    rw [source, Source.value?, nesting]
    cases depth with
    | zero => exact iff_of_false nofun (Nat.not_succ_le_zero _)
    | succ depth =>
      rw [if_neg (Nat.succ_ne_zero depth), Option.isSome_map, Nat.add_sub_cancel,
        isSome_itemValues?_iff items depth, Nat.add_le_add_iff_right]
  | .object members, depth => by
    rw [source, Source.value?, nesting]
    cases depth with
    | zero => exact iff_of_false nofun (Nat.not_succ_le_zero _)
    | succ depth =>
      rw [if_neg (Nat.succ_ne_zero depth), Option.isSome_map, Nat.add_sub_cancel,
        isSome_memberValues?_iff members depth, Nat.add_le_add_iff_right]

/-- So it does for items. -/
theorem isSome_itemValues?_iff : ∀ (items : List Json) (depth : Nat),
    (Source.itemValues? depth (itemSources items)).isSome = true ↔ itemsNesting items ≤ depth
  | [], depth => iff_of_true rfl (Nat.zero_le depth)
  | item :: items, depth => by
    rw [itemSources, Source.itemValues?, itemsNesting, Nat.max_le, ← isSome_value?_iff item depth,
      ← isSome_itemValues?_iff items depth]
    cases item.source.value? depth with
    | none => simp
    | some value => cases Source.itemValues? depth (itemSources items) <;> simp

/-- So it does for members. -/
theorem isSome_memberValues?_iff : ∀ (members : List (String × Json)) (depth : Nat),
    (Source.memberValues? depth (memberSources members)).isSome = true ↔
      membersNesting members ≤ depth
  | [], depth => iff_of_true rfl (Nat.zero_le depth)
  | (key, value) :: members, depth => by
    rw [memberSources, Source.memberValues?, membersNesting, Nat.max_le,
      ← isSome_value?_iff value depth, ← isSome_memberValues?_iff members depth]
    cases value.source.value? depth with
    | none => simp
    | some found => cases Source.memberValues? depth (memberSources members) <;> simp

end

end KnowledgeGraph.Json
