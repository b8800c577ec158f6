import KnowledgeGraph.Graph.Basic

/-!
# Facts to look up

A search asks the same three questions of the data again and again: whether it says a triple, whether
anything of a type leaves a concept and whether anything of a type enters one. The triples are kept by
their ends to answer them. Main statements: the answers are those of a scan of all triples.
-/

namespace KnowledgeGraph

/-- Triples by their ends. -/
structure Facts where
  /-- The types and targets of the triples that leave a concept. -/
  leaving : Dict (List (String × String)) := .empty
  /-- The types of the triples that enter a concept. -/
  entering : Dict (List String) := .empty

namespace Facts

/-- What stands under a concept, if anything. -/
def under {α : Type} (index : Dict (List α)) (concept : String) : List α :=
  (index.get? concept).getD []

/-- The facts with a triple added. -/
def add (facts : Facts) (triple : Triple) : Facts :=
  { leaving := facts.leaving.insert triple.source
      ((triple.type, triple.target) :: under facts.leaving triple.source)
    entering := facts.entering.insert triple.target
      (triple.type :: under facts.entering triple.target) }

/-- The facts that triples are. -/
def ofTriples : List Triple → Facts
  | [] => {}
  | triple :: rest => (ofTriples rest).add triple

/-- Whether a triple is a fact. -/
def holds (facts : Facts) (triple : Triple) : Bool :=
  (under facts.leaving triple.source).contains (triple.type, triple.target)

/-- Whether a fact of a type leaves a concept. -/
def leaves (facts : Facts) (source type : String) : Bool :=
  (under facts.leaving source).any fun fact => decide (fact.1 = type)

/-- Whether a fact of a type enters a concept. -/
def enters (facts : Facts) (type target : String) : Bool :=
  (under facts.entering target).contains type

/-- Adding under one concept changes what stands there and nothing else. -/
theorem under_insert {α : Type} (index : Dict (List α)) (concept other : String) (value : List α) :
    under (index.insert concept value) other =
      if concept = other then value else under index other := by
  by_cases h : concept = other <;> simp [under, h]

/-- The triples that leave a concept stand under it. -/
theorem mem_under_leaving (triples : List Triple) (source type target : String) :
    (type, target) ∈ under (ofTriples triples).leaving source ↔
      (⟨source, type, target⟩ : Triple) ∈ triples := by
  induction triples with
  | nil => simp [ofTriples, under]
  | cons head rest ih =>
    obtain ⟨s, y, t⟩ := head
    by_cases h : s = source
    · subst h
      simp [ofTriples, add, under_insert, ih]
    · simp [ofTriples, add, under_insert, h, Ne.symm h, ih]

/-- The types of the triples that enter a concept stand under it. -/
theorem mem_under_entering (triples : List Triple) (type target : String) :
    type ∈ under (ofTriples triples).entering target ↔
      ∃ source, (⟨source, type, target⟩ : Triple) ∈ triples := by
  induction triples with
  | nil => simp [ofTriples, under]
  | cons head rest ih =>
    obtain ⟨s, y, t⟩ := head
    by_cases h : t = target
    · subst h
      simp [ofTriples, add, under_insert, ih, exists_or]
    · simp [ofTriples, add, under_insert, h, Ne.symm h, ih]

/-- A triple is a fact when it is one of the triples. -/
theorem holds_ofTriples (triples : List Triple) (triple : Triple) :
    (ofTriples triples).holds triple = true ↔ triple ∈ triples := by
  obtain ⟨source, type, target⟩ := triple
  simp [holds, mem_under_leaving]

/-- A fact of a type leaves a concept when one of the triples does. -/
theorem leaves_ofTriples (triples : List Triple) (source type : String) :
    (ofTriples triples).leaves source type = true ↔
      ∃ target, (⟨source, type, target⟩ : Triple) ∈ triples := by
  simp [leaves, mem_under_leaving]

/-- A fact of a type enters a concept when one of the triples does. -/
theorem enters_ofTriples (triples : List Triple) (type target : String) :
    (ofTriples triples).enters type target = true ↔
      ∃ source, (⟨source, type, target⟩ : Triple) ∈ triples := by
  simp [enters, mem_under_entering]

end Facts

end KnowledgeGraph
