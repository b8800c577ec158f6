import KnowledgeGraph.Dict
import Mathlib.Data.List.Basic
import Mathlib.Data.List.Nodup
import Mathlib.Data.List.Perm.Subperm

/-!
# Keys and values of dictionaries

What the operations of a dictionary do to the keys it has and to the values it lists. A key behind all
others is entered at the end of the list; a dictionary that has the keys of another and no more entries
than it has just these keys.
-/

namespace KnowledgeGraph.Dict

universe u

variable {α : Type u}

/-- A key is present when there is a value under it. -/
theorem contains_iff {d : Dict α} {key : String} :
    d.contains key = true ↔ ∃ value, d.get? key = some value := by
  rw [contains, Option.isSome_iff_exists]

/-- A value under a key witnesses that the key is present. -/
theorem contains_of_get? {d : Dict α} {key : String} {value : α} (h : d.get? key = some value) :
    d.contains key = true :=
  contains_iff.mpr ⟨value, h⟩

/-- No value stands under an absent key. -/
theorem get?_eq_none {d : Dict α} {key : String} :
    d.get? key = none ↔ ¬d.contains key = true := by
  rw [contains, Bool.not_eq_true, Option.isSome_eq_false_iff, Option.isNone_iff_eq_none]

/-- Setting a value makes its key present. -/
@[simp] theorem contains_insert {d : Dict α} {key other : String} {value : α} :
    (d.insert key value).contains other = true ↔ key = other ∨ d.contains other = true := by
  by_cases h : key = other <;> simp [contains, h]

/-- Removing a key leaves all others. -/
@[simp] theorem contains_erase {d : Dict α} {key other : String} :
    (d.erase key).contains other = true ↔ other ≠ key ∧ d.contains other = true := by
  by_cases h : other = key <;> simp [contains, h]

/-- Filtering by keys alone leaves the keys that pass. -/
@[simp] theorem contains_filter_key {d : Dict α} {p : String → Bool} {key : String} :
    (d.filter fun key _ => p key).contains key = true ↔ d.contains key = true ∧ p key = true := by
  simp only [contains_iff, get?_filter, Option.filter_eq_some_iff, exists_and_right]

/-- The values are those under some key. -/
theorem mem_values {d : Dict α} {value : α} : value ∈ d.values ↔ ∃ key, d.get? key = some value := by
  simp only [values, List.mem_map, Prod.exists, mem_entries]
  constructor
  · rintro ⟨key, other, h, rfl⟩
    exact ⟨key, h⟩
  · rintro ⟨key, h⟩
    exact ⟨key, value, h, rfl⟩

/-- No key is listed twice. -/
theorem keys_nodup (d : Dict α) : d.keys.Nodup :=
  d.keys_ascending.imp String.ne_of_lt

/-- Keys and values are listed entry by entry. -/
theorem length_keys (d : Dict α) : d.keys.length = d.size := by
  rw [keys, List.length_map, size]

/-- Keys and values are listed entry by entry. -/
theorem length_values (d : Dict α) : d.values.length = d.keys.length := by
  rw [keys, values, List.length_map, List.length_map]

/-- An entry whose key stands behind all others goes to the end. -/
theorem entries_insert_last {d : Dict α} {key : String} {value : α}
    (h : ∀ other ∈ d.keys, other < key) :
    (d.insert key value).entries = d.entries ++ [(key, value)] := by
  have put_last : ∀ entries : List (String × α), (∀ entry ∈ entries, entry.1 < key) →
      Ascending.put key value entries = entries ++ [(key, value)] := by
    intro entries hl
    induction entries with
    | nil => rfl
    | cons head rest ih =>
      have hh : head.1 < key := hl head List.mem_cons_self
      have hn : ¬key < head.1 := String.lt_asymm hh
      have hd : head.1 ≠ key := fun same => String.lt_irrefl _ (same ▸ hh)
      rw [Ascending.put, if_neg hn, if_neg hd, ih fun entry he => hl entry (List.mem_cons_of_mem _ he)]
      rfl
  exact put_last d.entries fun entry he => h entry.1 (List.mem_map_of_mem he)

/-- A key behind all others is listed last. -/
theorem keys_insert_last {d : Dict α} {key : String} {value : α}
    (h : ∀ other ∈ d.keys, other < key) : (d.insert key value).keys = d.keys ++ [key] := by
  rw [keys, entries_insert_last h, List.map_append, ← keys]
  rfl

/-- The value of a key behind all others is listed last. -/
theorem values_insert_last {d : Dict α} {key : String} {value : α}
    (h : ∀ other ∈ d.keys, other < key) : (d.insert key value).values = d.values ++ [value] := by
  rw [values, entries_insert_last h, List.map_append, ← values]
  rfl

/-- In a list of entries with keys of their own a scan finds each entry. -/
theorem find?_eq_some_of_nodup {key : String} {value : α} {entries : List (String × α)}
    (h : (entries.map (·.1)).Nodup) :
    Ascending.find? key entries = some value ↔ (key, value) ∈ entries := by
  induction entries with
  | nil => simp [Ascending.find?]
  | cons head rest ih =>
    obtain ⟨k, old⟩ := head
    obtain ⟨hk, hr⟩ := List.nodup_cons.mp h
    by_cases same : k = key
    · subst same
      have absent : (k, value) ∉ rest := fun mem => hk (List.mem_map.mpr ⟨_, mem, rfl⟩)
      simp [Ascending.find?, absent, eq_comm]
    · simp [Ascending.find?, same, Ne.symm same, ih hr]

/-- Scanning from the back finds the same, since a key occurs once. -/
theorem find?_reverse (d : Dict α) (key : String) :
    Ascending.find? key d.entries.reverse = d.get? key := by
  have hn : (d.entries.reverse.map (·.1)).Nodup := by
    rw [List.map_reverse]
    exact List.nodup_reverse.mpr d.keys_nodup
  ext value
  rw [find?_eq_some_of_nodup hn, List.mem_reverse, mem_entries]

/-- Under a key of both dictionaries the second one's value stays. -/
theorem get?_extend (d other : Dict α) (key : String) :
    (d.extend other).get? key = (other.get? key).or (d.get? key) := by
  rw [extend, get?_insertMany, find?_reverse]

/-- A change of the values that leaves each of them leaves the dictionary. -/
theorem map_eq_self {f : α → α} {d : Dict α} :
    d.map f = d ↔ ∀ key value, d.get? key = some value → f value = value := by
  constructor
  · intro h key value hv
    have hm : (d.map f).get? key = some (f value) := by rw [get?_map, hv, Option.map_some]
    rw [h, hv] at hm
    exact (Option.some.inj hm).symm
  · intro h
    ext key : 1
    rw [get?_map]
    cases hv : d.get? key with
    | none => rfl
    | some value => rw [Option.map_some, h key value hv]

/-- A change of the values changes the listed values. -/
@[simp] theorem values_map {β : Type u} (f : α → β) (d : Dict α) :
    (d.map f).values = d.values.map f := by
  simp [values, map]

/-- A change of the values leaves which keys there are. -/
@[simp] theorem contains_map {β : Type u} (f : α → β) (d : Dict α) (key : String) :
    (d.map f).contains key = d.contains key := by
  simp [contains]

/-- A change of the values leaves how many there are. -/
@[simp] theorem size_map {β : Type u} (f : α → β) (d : Dict α) : (d.map f).size = d.size := by
  simp [size, map]

/-- A value may be changed before it is set or with all others. -/
theorem map_insert {β : Type u} (f : α → β) (d : Dict α) (key : String) (value : α) :
    (d.insert key value).map f = (d.map f).insert key (f value) := by
  ext other : 1
  rw [get?_map, get?_insert, get?_insert, get?_map]
  split <;> rfl

/-- Values may be changed before a key is removed or after. -/
theorem map_erase {β : Type u} (f : α → β) (d : Dict α) (key : String) :
    (d.erase key).map f = (d.map f).erase key := by
  ext other : 1
  rw [get?_map, get?_erase, get?_erase, get?_map]
  split <;> rfl

/-- A change that leaves two dictionaries leaves both together. -/
theorem map_extend_eq_self {f : α → α} {d other : Dict α} (hd : d.map f = d)
    (ho : other.map f = other) : (d.extend other).map f = d.extend other := by
  rw [map_eq_self] at hd ho ⊢
  intro key value hv
  rw [get?_extend, Option.or_eq_some_iff] at hv
  rcases hv with hv | ⟨-, hv⟩
  · exact ho key value hv
  · exact hd key value hv

/-- Removing keys one after the other leaves the others. -/
theorem get?_foldl_erase (d : Dict α) (keys : List String) (key : String) :
    (keys.foldl erase d).get? key = if key ∈ keys then none else d.get? key := by
  induction keys generalizing d with
  | nil => simp
  | cons head rest ih =>
    rw [List.foldl_cons, ih, get?_erase]
    by_cases hr : key ∈ rest
    · rw [if_pos hr, if_pos (List.mem_cons_of_mem _ hr)]
    · by_cases hh : key = head <;> simp [hr, hh]

/-- Removing the keys of the values that pass a test leaves the others. -/
theorem foldl_erase_keys_filter (d : Dict α) (p : String → α → Bool) :
    (d.filter p).keys.foldl erase d = d.filter fun key value => !p key value := by
  ext key : 1
  rw [get?_foldl_erase, get?_filter]
  cases hg : d.get? key with
  | none => simp
  | some value =>
    have hmem : key ∈ (d.filter p).keys ↔ p key value = true := by
      rw [mem_keys, contains_iff]
      simp [get?_filter, hg]
    by_cases hp : p key value = true
    · rw [if_pos (hmem.mpr hp), Option.filter_some]
      simp [hp]
    · rw [if_neg fun hk => hp (hmem.mp hk), Option.filter_some]
      simp [hp]

/-- Extending a dictionary by itself changes nothing. -/
@[simp] theorem extend_self (d : Dict α) : d.extend d = d := by
  ext key value
  rw [get?_extend]
  cases d.get? key <;> simp

/-- Extending a dictionary a second time changes nothing. -/
@[simp] theorem extend_extend_self (d other : Dict α) :
    (d.extend other).extend other = d.extend other := by
  ext key value
  rw [get?_extend, get?_extend]
  cases other.get? key <;> simp

/-- A dictionary is not extended by one that has all its keys, but replaced. -/
theorem extend_eq_right {d other : Dict α} :
    d.extend other = other ↔ ∀ key, d.contains key = true → other.contains key = true := by
  constructor
  · intro h key hk
    obtain ⟨value, hv⟩ := contains_iff.mp hk
    rw [← h, contains, get?_extend, hv]
    cases other.get? key <;> rfl
  · intro h
    ext key : 1
    rw [get?_extend]
    cases ho : other.get? key with
    | some value => rfl
    | none => exact get?_eq_none.mpr fun hk => get?_eq_none.mp ho (h key hk)

/-- A dictionary has the keys that it has after it is extended. -/
theorem contains_extend_left {d other : Dict α} {key : String} (h : d.contains key = true) :
    (d.extend other).contains key = true := by
  obtain ⟨value, hv⟩ := contains_iff.mp h
  rw [contains, get?_extend, hv]
  cases other.get? key <;> rfl

/-- Nothing is added from an empty dictionary. -/
@[simp] theorem extend_empty (d : Dict α) : d.extend .empty = d := rfl

/-- A dictionary made of entries with keys of their own has just these. -/
theorem get?_ofList {entries : List (String × α)} (h : (entries.map (·.1)).Nodup)
    {key : String} {value : α} : (ofList entries).get? key = some value ↔ (key, value) ∈ entries := by
  have hn : (entries.reverse.map (·.1)).Nodup := by
    rw [List.map_reverse]
    exact List.nodup_reverse.mpr h
  rw [ofList, get?_insertMany, get?_empty, Option.or_none, find?_eq_some_of_nodup hn,
    List.mem_reverse]

/-- It lists just these, in the order of their keys. -/
theorem entries_ofList_perm {entries : List (String × α)} (h : (entries.map (·.1)).Nodup) :
    (ofList entries).entries.Perm entries := by
  refine (List.perm_ext_iff_of_nodup (.of_map _ (ofList entries).keys_nodup) (.of_map _ h)).mpr ?_
  rintro ⟨key, value⟩
  rw [mem_entries, get?_ofList h]

/-- What a scan finds is in the list. -/
theorem mem_of_find? {key : String} {value : α} {entries : List (String × α)}
    (h : Ascending.find? key entries = some value) : (key, value) ∈ entries := by
  induction entries with
  | nil => cases h
  | cons head rest ih =>
    obtain ⟨k, old⟩ := head
    rw [Ascending.find?] at h
    split at h
    next same =>
      cases h
      rw [← same]
      exact List.mem_cons_self
    next => exact List.mem_cons_of_mem _ (ih h)

/-- Entries in order are the entries of their dictionary. -/
theorem entries_ofList {entries : List (String × α)} (h : Ascending entries) :
    (ofList entries).entries = entries := by
  have hkeys : (entries.map (·.1)).Nodup := (List.pairwise_map.mpr h).imp String.ne_of_lt
  have hsame : ofList entries = ⟨entries, h⟩ := by
    ext key value
    rw [get?_ofList hkeys, ← mem_entries]
  rw [hsame]

/-- A dictionary made of entries has no others. -/
theorem mem_of_mem_ofList {entries : List (String × α)} {entry : String × α}
    (h : entry ∈ (ofList entries).entries) : entry ∈ entries := by
  have hg := mem_entries.mp h
  rw [ofList, get?_insertMany, get?_empty, Option.or_none] at hg
  exact List.mem_reverse.mp (mem_of_find? hg)

/-- After a value is set the entries are the new one and those under other keys. -/
theorem mem_entries_insert {d : Dict α} {key other : String} {value old : α} :
    (other, old) ∈ (d.insert key value).entries ↔
      key = other ∧ value = old ∨ key ≠ other ∧ (other, old) ∈ d.entries := by
  rw [mem_entries, mem_entries, get?_insert]
  by_cases same : key = other
  · simp [same]
  · simp [same]

/-- A value entered under its own free key is one more of the values that are there under theirs. -/
theorem mem_or_get?_insert {ident : α → String} {head value : α} {rest : List α} {d : Dict α}
    {key : String} (hf : d.get? (ident head) = none) :
    (value ∈ rest ∧ ident value = key ∨
        (if ident head = key then some head else d.get? key) = some value) ↔
      value ∈ head :: rest ∧ ident value = key ∨ d.get? key = some value := by
  by_cases same : ident head = key
  · subst same
    rw [if_pos rfl, hf, Option.some.injEq, List.mem_cons]
    constructor
    · rintro (⟨hm, hi⟩ | rfl)
      · exact .inl ⟨.inr hm, hi⟩
      · exact .inl ⟨.inl rfl, rfl⟩
    · rintro (⟨rfl | hm, hi⟩ | hnone)
      · exact .inr rfl
      · exact .inl ⟨hm, hi⟩
      · cases hnone
  · rw [if_neg same, List.mem_cons]
    constructor
    · rintro (⟨hm, hi⟩ | hg)
      · exact .inl ⟨.inr hm, hi⟩
      · exact .inr hg
    · rintro (⟨rfl | hm, hi⟩ | hg)
      · exact absurd hi same
      · exact .inl ⟨hm, hi⟩
      · exact .inr hg

/-- A dictionary that has all keys of another one lists them among its own. -/
theorem keys_subperm {d other : Dict α}
    (h : ∀ key, d.contains key = true → other.contains key = true) : d.keys.Subperm other.keys :=
  List.subperm_of_subset d.keys_nodup fun key hk => mem_keys.mpr (h key (mem_keys.mp hk))

/-- A dictionary that has all keys of another one has no fewer entries. -/
theorem size_le_of_contains {d other : Dict α}
    (h : ∀ key, d.contains key = true → other.contains key = true) : d.size ≤ other.size := by
  rw [← length_keys, ← length_keys]
  exact (keys_subperm h).length_le

/-- A dictionary that has all keys of another one and no more entries has just its keys. -/
theorem contains_of_size_eq {d other : Dict α}
    (h : ∀ key, d.contains key = true → other.contains key = true) (hs : other.size = d.size)
    {key : String} (hk : other.contains key = true) : d.contains key = true := by
  have hlen : other.keys.length = d.keys.length := by
    rw [length_keys, length_keys, hs]
  have hperm := (keys_subperm h).perm_of_length_le (Nat.le_of_eq hlen)
  exact mem_keys.mp (hperm.mem_iff.mpr (mem_keys.mpr hk))

section Laying

variable {ident : α → String} {lay : Option α → α → α} {d other : Dict α} {values : List α}
  {value : α} {key : String}

/-- Enters values under keys of their own, one after the other, each laid over what stands there. -/
def layAll (ident : α → String) (lay : Option α → α → α) (d : Dict α) (values : List α) : Dict α :=
  values.foldl (fun d value => d.insert (ident value) (lay (d.get? (ident value)) value)) d

/-- What stands under other keys stays. -/
theorem get?_layAll_of_ne (hn : ∀ value ∈ values, ident value ≠ key) :
    (d.layAll ident lay values).get? key = d.get? key := by
  induction values generalizing d with
  | nil => rfl
  | cons head rest ih =>
    obtain ⟨hhead, hrest⟩ := List.forall_mem_cons.mp hn
    rw [layAll, List.foldl_cons, ← layAll, ih hrest, get?_insert, if_neg hhead]

/-- A value with a key of its own is laid over what stood there at first. -/
theorem get?_layAll_of_mem (hn : (values.map ident).Nodup) (hv : value ∈ values) :
    (d.layAll ident lay values).get? (ident value) =
      some (lay (d.get? (ident value)) value) := by
  induction values generalizing d with
  | nil => cases hv
  | cons head rest ih =>
    obtain ⟨hhead, hrest⟩ := List.nodup_cons.mp hn
    rw [layAll, List.foldl_cons, ← layAll]
    rcases List.mem_cons.mp hv with rfl | hv
    · have hothers : ∀ other ∈ rest, ident other ≠ ident value := fun other ho same =>
        hhead (List.mem_map.mpr ⟨other, ho, same⟩)
      rw [get?_layAll_of_ne hothers, get?_insert, if_pos rfl]
    · have hne : ident head ≠ ident value := fun same =>
        hhead (List.mem_map.mpr ⟨value, hv, same.symm⟩)
      rw [ih hrest hv, get?_insert, if_neg hne]

/-- If a dictionary has all keys of the first one, laying its values over those replaces them. -/
theorem layAll_values {row : α → α}
    (hkey : ∀ key value, other.get? key = some value → ident value = key)
    (hsub : ∀ key, d.contains key = true → other.contains key = true)
    (hlay : ∀ key value, other.get? key = some value → lay (d.get? key) value = row value) :
    d.layAll ident lay other.values = other.map row := by
  have hkeys : other.values.map ident = other.keys := by
    rw [values, keys, List.map_map]
    exact List.map_congr_left fun entry he => hkey entry.1 entry.2 (mem_entries.mp he)
  ext key : 1
  rw [get?_map]
  cases ho : other.get? key with
  | some value =>
    have hmem : value ∈ other.values := mem_values.mpr ⟨key, ho⟩
    have hlaid := @get?_layAll_of_mem _ _ lay d _ _ (hkeys ▸ other.keys_nodup) hmem
    rw [hkey key value ho, hlay key value ho] at hlaid
    exact hlaid
  | none =>
    have hne : ∀ value ∈ other.values, ident value ≠ key := by
      rintro value hv rfl
      obtain ⟨found, hf⟩ := mem_values.mp hv
      rw [hkey found value hf, hf] at ho
      cases ho
    rw [get?_layAll_of_ne hne, Option.map_none]
    exact get?_eq_none.mpr fun hk => get?_eq_none.mp ho (hsub key hk)

end Laying

end KnowledgeGraph.Dict
