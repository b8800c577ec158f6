/-!
# Dictionaries ordered by text key

A dictionary keeps its entries in strictly increasing key order, so it lists them in one order only
and two dictionaries with the same lookups are equal. Text is ordered by code point, which is also
the order of its UTF-8 bytes. Every operation is described by what it does to `get?`.
-/

namespace KnowledgeGraph

universe u

/-- Keys increase strictly along the list, hence no key occurs twice. -/
abbrev Ascending {α : Type u} (entries : List (String × α)) : Prop :=
  entries.Pairwise fun first second => first.1 < second.1

namespace Ascending

variable {α : Type u}

/-- The value under a key, by a scan from the front. -/
def find? (key : String) : List (String × α) → Option α
  | [] => none
  | (k, value) :: rest => if k = key then some value else find? key rest

/-- Puts an entry at its place in the order, replacing the value of an equal key. -/
def put (key : String) (value : α) : List (String × α) → List (String × α)
  | [] => [(key, value)]
  | (k, old) :: rest =>
    if key < k then (key, value) :: (k, old) :: rest
    else if k = key then (key, value) :: rest
    else (k, old) :: put key value rest

/-- An entry of a list into which one was put is that one or was there before. -/
theorem mem_put {key : String} {value : α} {entry : String × α} {entries : List (String × α)}
    (h : entry ∈ put key value entries) : entry = (key, value) ∨ entry ∈ entries := by
  induction entries with
  | nil => simpa [put] using h
  | cons head rest ih =>
    obtain ⟨k, old⟩ := head
    rw [put] at h
    split at h
    · simpa using h
    · split at h
      · rcases List.mem_cons.1 h with h | h
        · exact .inl h
        · exact .inr (List.mem_cons_of_mem _ h)
      · rcases List.mem_cons.1 h with h | h
        · exact .inr (h ▸ List.mem_cons_self)
        · exact (ih h).imp id (List.mem_cons_of_mem _)

/-- Putting an entry at its place keeps the keys in order. -/
theorem put_ascending (key : String) (value : α) {entries : List (String × α)}
    (h : Ascending entries) : Ascending (put key value entries) := by
  induction entries with
  | nil => simp [put]
  | cons head rest ih =>
    obtain ⟨k, old⟩ := head
    obtain ⟨first, later⟩ := List.pairwise_cons.1 h
    rw [put]
    split
    next before =>
      refine List.pairwise_cons.2 ⟨fun entry mem => ?_, h⟩
      rcases List.mem_cons.1 mem with rfl | mem
      · exact before
      · exact String.lt_trans before (first entry mem)
    next notBefore =>
      split
      next same => exact List.pairwise_cons.2 ⟨fun entry mem => same ▸ first entry mem, later⟩
      next different =>
        refine List.pairwise_cons.2 ⟨fun entry mem => ?_, ih later⟩
        rcases mem_put mem with rfl | mem
        · exact Std.lt_of_le_of_ne (String.not_lt.1 notBefore) different
        · exact first entry mem

/-- After an entry was put its key has its value, and any other key has what it had. -/
theorem find?_put (key other : String) (value : α) (entries : List (String × α)) :
    find? other (put key value entries) = if key = other then some value else find? other entries := by
  induction entries with
  | nil => rfl
  | cons head rest ih =>
    obtain ⟨k, old⟩ := head
    rw [put]
    split
    · rfl
    · split
      next same =>
        subst same
        by_cases hk : k = other <;> simp [find?, hk]
      next different =>
        by_cases hk : k = other
        · subst hk
          simp [find?, Ne.symm different]
        · simp [find?, hk, ih]

/-- A key that no entry has is not found. -/
theorem find?_eq_none {key : String} {entries : List (String × α)}
    (h : ∀ entry ∈ entries, entry.1 ≠ key) : find? key entries = none := by
  induction entries with
  | nil => rfl
  | cons head rest ih =>
    rw [find?, if_neg (h head List.mem_cons_self)]
    exact ih fun entry mem => h entry (List.mem_cons_of_mem _ mem)

/-- Under a key of changed values stands the changed value. -/
theorem find?_map {β : Type u} (f : α → β) (key : String) (entries : List (String × α)) :
    find? key (entries.map fun entry => (entry.1, f entry.2)) = (find? key entries).map f := by
  induction entries with
  | nil => rfl
  | cons head rest ih => by_cases hk : head.1 = key <;> simp [find?, hk, ih]

/-- Under a key of the entries that pass a test stands its value, if that entry passes. -/
theorem find?_filter (p : String × α → Bool) (key : String) {entries : List (String × α)}
    (h : Ascending entries) :
    find? key (entries.filter p) = (find? key entries).filter fun value => p (key, value) := by
  induction entries with
  | nil => rfl
  | cons head rest ih =>
    obtain ⟨k, value⟩ := head
    obtain ⟨first, later⟩ := List.pairwise_cons.1 h
    by_cases hk : k = key
    · subst hk
      have gone : find? k (rest.filter p) = none := find?_eq_none fun entry mem same =>
        String.lt_irrefl k (by simpa [same] using first entry (List.mem_filter.1 mem).1)
      by_cases hp : p (k, value) <;> simp [find?, hp, gone, Option.filter]
    · by_cases hp : p (k, value) <;> simp [find?, hk, hp, ih later]

/-- An entry is in the list when its value is found under its key. -/
theorem mem_iff_find? {key : String} {value : α} {entries : List (String × α)}
    (h : Ascending entries) : (key, value) ∈ entries ↔ find? key entries = some value := by
  induction entries with
  | nil => simp [find?]
  | cons head rest ih =>
    obtain ⟨k, old⟩ := head
    obtain ⟨first, later⟩ := List.pairwise_cons.1 h
    by_cases hk : k = key
    · subst hk
      have absent : (k, value) ∉ rest := fun mem => String.lt_irrefl k (first _ mem)
      simp [find?, absent, eq_comm]
    · simp [find?, hk, Ne.symm hk, ih later]

/-- Lists in order in which the same is found under each key are one list. -/
theorem eq_of_find?_eq {left right : List (String × α)} (hl : Ascending left)
    (hr : Ascending right) (h : ∀ key, find? key left = find? key right) : left = right := by
  induction left generalizing right with
  | nil =>
    cases right with
    | nil => rfl
    | cons head rest => simpa [find?] using h head.1
  | cons head rest ih =>
    obtain ⟨k, value⟩ := head
    obtain ⟨first, later⟩ := List.pairwise_cons.1 hl
    cases right with
    | nil => simpa [find?] using h k
    | cons head' rest' =>
      obtain ⟨k', value'⟩ := head'
      obtain ⟨first', later'⟩ := List.pairwise_cons.1 hr
      have here : (k, value) ∈ (k', value') :: rest' :=
        (mem_iff_find? hr).2 (h k ▸ (mem_iff_find? hl).1 List.mem_cons_self)
      have there : (k', value') ∈ (k, value) :: rest :=
        (mem_iff_find? hl).2 (h k' ▸ (mem_iff_find? hr).1 List.mem_cons_self)
      have same : (k, value) = (k', value') := by
        rcases List.mem_cons.1 here with eq | mem
        · exact eq
        · rcases List.mem_cons.1 there with eq | mem'
          · exact eq.symm
          · exact absurd (first _ mem') (String.lt_asymm (first' _ mem))
      obtain ⟨rfl, rfl⟩ := Prod.mk.inj same
      refine congrArg _ (ih later later' fun key => ?_)
      by_cases hk : k = key
      · subst hk
        have absent : ∀ tail : List (String × α), (∀ entry ∈ tail, k < entry.1) →
            find? k tail = none := fun tail above => find?_eq_none fun entry mem eq =>
          String.lt_irrefl k (by simpa [eq] using above entry mem)
        rw [absent rest first, absent rest' first']
      · simpa [find?, hk] using h key

end Ascending

/-- A finite map from text to values that lists its entries in increasing key order. -/
structure Dict (α : Type u) where
  /-- The entries, in the order in which they are listed and written. -/
  entries : List (String × α)
  /-- The order is strict, so each key has one value. -/
  ascending : Ascending entries

namespace Dict

variable {α : Type u}

/-- A dictionary is determined by its entries, since the order is a proposition. -/
theorem eq_of_entries {left right : Dict α} (h : left.entries = right.entries) : left = right := by
  cases left; cases right; cases h; rfl

instance [DecidableEq α] : DecidableEq (Dict α) := fun left right =>
  if h : left.entries = right.entries then .isTrue (eq_of_entries h)
  else .isFalse fun eq => h (congrArg entries eq)

/-- The dictionary without entries. -/
def empty : Dict α := ⟨[], .nil⟩

instance : EmptyCollection (Dict α) := ⟨empty⟩

instance : Inhabited (Dict α) := ⟨empty⟩

/-- The value under a key. -/
def get? (d : Dict α) (key : String) : Option α := Ascending.find? key d.entries

/-- Whether a key has a value. -/
def contains (d : Dict α) (key : String) : Bool := (d.get? key).isSome

/-- Sets the value under a key. -/
def insert (d : Dict α) (key : String) (value : α) : Dict α :=
  ⟨Ascending.put key value d.entries, Ascending.put_ascending key value d.ascending⟩

/-- Keeps the entries that pass a test. -/
def filter (p : String → α → Bool) (d : Dict α) : Dict α :=
  ⟨d.entries.filter fun entry => p entry.1 entry.2, d.ascending.filter _⟩

/-- Changes every value and leaves the keys. -/
def map {β : Type u} (f : α → β) (d : Dict α) : Dict β :=
  ⟨d.entries.map fun entry => (entry.1, f entry.2), List.pairwise_map.2 d.ascending⟩

/-- Removes a key, if it is there. -/
def erase (d : Dict α) (key : String) : Dict α := d.filter fun k _ => decide (k ≠ key)

/-- The keys in increasing order. -/
def keys (d : Dict α) : List String := d.entries.map (·.1)

/-- The values in the order of their keys. -/
def values (d : Dict α) : List α := d.entries.map (·.2)

/-- The number of entries. -/
def size (d : Dict α) : Nat := d.entries.length

/-- Whether there are no entries. -/
def isEmpty (d : Dict α) : Bool := d.entries.isEmpty

/-- Sets entries one after the other, so that of two with one key the later stays. -/
def insertMany (d : Dict α) (entries : List (String × α)) : Dict α :=
  entries.foldl (fun acc entry => acc.insert entry.1 entry.2) d

/-- The dictionary of a list of entries, of which a later one replaces an earlier one. -/
def ofList (entries : List (String × α)) : Dict α := (empty : Dict α).insertMany entries

/-- A list of texts in increasing order, each once. -/
def sortedKeys (keys : List String) : List String :=
  (ofList (keys.map fun key => (key, ()))).keys

/-- Both dictionaries together; under a key of both the second one's value stays. -/
def extend (d other : Dict α) : Dict α := d.insertMany other.entries

/-- The empty dictionary has no value under any key. -/
@[simp] theorem get?_empty (key : String) : (empty : Dict α).get? key = none := rfl

/-- The key that was set has the value, and any other key has what it had. -/
@[simp] theorem get?_insert (d : Dict α) (key other : String) (value : α) :
    (d.insert key value).get? other = if key = other then some value else d.get? other :=
  Ascending.find?_put key other value d.entries

/-- Under a key of changed values stands the changed value. -/
@[simp] theorem get?_map {β : Type u} (f : α → β) (d : Dict α) (key : String) :
    (d.map f).get? key = (d.get? key).map f :=
  Ascending.find?_map f key d.entries

/-- A key keeps its value if its entry passes the test. -/
@[simp] theorem get?_filter (p : String → α → Bool) (d : Dict α) (key : String) :
    (d.filter p).get? key = (d.get? key).filter (p key) :=
  Ascending.find?_filter _ key d.ascending

/-- The key that was removed has no value, and any other key has what it had. -/
@[simp] theorem get?_erase (d : Dict α) (key other : String) :
    (d.erase key).get? other = if other = key then none else d.get? other := by
  rw [erase, get?_filter]
  by_cases h : other = key
  · simp [h]
  · cases d.get? other <;> simp [h]

/-- Two dictionaries with the same lookups are one. -/
@[ext] theorem ext {left right : Dict α} (h : ∀ key, left.get? key = right.get? key) :
    left = right :=
  eq_of_entries (Ascending.eq_of_find?_eq left.ascending right.ascending h)

/-- An entry is listed when its value stands under its key. -/
theorem mem_entries {d : Dict α} {key : String} {value : α} :
    (key, value) ∈ d.entries ↔ d.get? key = some value :=
  Ascending.mem_iff_find? d.ascending

/-- A key is listed when it has a value. -/
theorem mem_keys {d : Dict α} {key : String} : key ∈ d.keys ↔ d.contains key = true := by
  simp [keys, contains, Option.isSome_iff_exists, ← mem_entries]

/-- Keys are listed in increasing order, each once. -/
theorem keys_ascending (d : Dict α) : d.keys.Pairwise (· < ·) :=
  List.pairwise_map.2 d.ascending

/-- Setting a list of entries gives each key its last value in the list. -/
theorem get?_insertMany (d : Dict α) (entries : List (String × α)) (key : String) :
    (d.insertMany entries).get? key =
      (Ascending.find? key entries.reverse).or (d.get? key) := by
  have step : ∀ (front : List (String × α)) (entry : String × α),
      Ascending.find? key (front ++ [entry]) =
        (Ascending.find? key front).or (if entry.1 = key then some entry.2 else none) := by
    intro front entry
    induction front with
    | nil => rfl
    | cons head rest ih =>
      by_cases hk : head.1 = key <;> simp [Ascending.find?, hk, ih]
  induction entries generalizing d with
  | nil => simp [insertMany, Ascending.find?]
  | cons entry rest ih =>
    have := ih (d.insert entry.1 entry.2)
    rw [insertMany, List.foldl_cons]
    rw [insertMany] at this
    rw [this, List.reverse_cons, step, get?_insert]
    by_cases hk : entry.1 = key <;> simp [hk]

end Dict

end KnowledgeGraph
