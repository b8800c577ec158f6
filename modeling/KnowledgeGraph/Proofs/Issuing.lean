import KnowledgeGraph.Proofs.FreshId
import Mathlib.Order.Bounds.Basic

/-!
# Ids that one source issues

A source is asked, in any order and for any graphs, for its next id, for the next one that a graph has not,
and for one under which a concept is added. The counter of a source has 64 bits, and a search for a free id
sets no bound to its draws: it goes on until an id is free. What requests come to is told first in these
terms, draw by draw, and is then what the functions on sources compute. Main statement: a search comes to
the least number from the next one on whose id is free, with at most one draw more than there are concepts,
and one source issues no id twice.
-/

namespace KnowledgeGraph

/-- A graph acquires a known concept with a description under an id that it had not. All else stays. -/
structure Graph.Acquires (g : Graph) (id description : String) (grown : Graph) : Prop where
  /-- No concept had the id. -/
  absent : g.hasConcept id = false
  /-- The new concept stands under the id. -/
  acquired : grown.concept? id = some { Concept.known id with description }
  /-- What stands under other ids is as it was. -/
  kept : ∀ other, other ≠ id → grown.concept? other = g.concept? other
  /-- The relations are as they were. -/
  relations : grown.relations = g.relations
  /-- The index is as it was. -/
  named : grown.named = g.named

/-- A graph acquires what is put under an id that it had not. -/
theorem Graph.acquires_insert {g : Graph} {id : String} (h : g.hasConcept id = false)
    (description : String) :
    g.Acquires id description
      { g with concepts := g.concepts.insert id { Concept.known id with description } } where
  absent := h
  acquired := by rw [Graph.concept?, Dict.get?_insert, if_pos rfl]
  kept other hother := by
    rw [Graph.concept?, Dict.get?_insert, if_neg (Ne.symm hother), Graph.concept?]
  relations := rfl
  named := rfl

namespace IdSource

variable {ids rest : IdSource} {g : Graph} {id : String} {number draws : Nat}

/-- The numbers, from the next one on, whose ids no concept of a graph has. -/
def freeNumbers (ids : IdSource) (g : Graph) : Set Nat :=
  {number | ids.next ≤ number ∧ g.hasConcept (ids.stem ++ toString number) = false}

/-- A source whose last id was that of a number. -/
def past (ids : IdSource) (number : Nat) : IdSource := { ids with next := number + 1 }

deriving instance DecidableEq for IdSource

/-- The next id is drawn, and the number after it has 64 bits too. -/
structure Draws (ids : IdSource) (id : String) (rest : IdSource) : Prop where
  /-- The counter goes up within 64 bits. -/
  fits : ids.next + 1 < Nat.pow 2 64
  /-- The id and the source that is left are those of a draw. -/
  drawn : ids.draw = (id, rest)

/-- Ids are drawn for as long as they are in use in a graph: after so many draws the search ends with an
id and leaves a source. -/
inductive Seeks (g : Graph) : IdSource → Nat → String → IdSource → Prop where
  /-- An id that is free ends the search. -/
  | found {ids rest : IdSource} {id : String} (draw : Draws ids id rest)
    (free : g.hasConcept id = false) : Seeks g ids 1 id rest
  /-- An id in use is passed over. -/
  | passed {ids next rest : IdSource} {used id : String} {draws : Nat} (draw : Draws ids used next)
    (inUse : g.hasConcept used = true) (later : Seeks g next draws id rest) :
    Seeks g ids (draws + 1) id rest

/-- The number of an id in use is not free, so when it is drawn the free numbers stay. -/
theorem Draws.freeNumbers_eq {used : String} {next : IdSource} (h : Draws ids used next)
    (hused : g.hasConcept used = true) : next.freeNumbers g = ids.freeNumbers g := by
  cases h.drawn
  ext number
  constructor
  · rintro ⟨hle, hfree⟩
    exact ⟨Nat.le_of_succ_le hle, hfree⟩
  · rintro ⟨hle, hfree⟩
    have hne : ids.next ≠ number := by
      rintro rfl
      exact Bool.false_ne_true (hfree.symm.trans hused)
    exact ⟨Nat.lt_of_le_of_ne hle hne, hfree⟩

/-- A search ends with the id of the least free number, and each number up to it was drawn once. -/
theorem Seeks.exists_isLeast (h : Seeks g ids draws id rest) :
    ∃ number, IsLeast (ids.freeNumbers g) number ∧ number + 1 = ids.next + draws ∧
      id = ids.stem ++ toString number ∧ rest = ids.past number := by
  induction h with
  | found draw free =>
    cases draw.drawn
    exact ⟨_, ⟨⟨Nat.le_refl _, free⟩, fun number hnumber => hnumber.1⟩, rfl, rfl, rfl⟩
  | passed draw inUse later ih =>
    obtain ⟨number, hleast, hdraws, hid, hrest⟩ := ih
    rw [draw.freeNumbers_eq inUse] at hleast
    cases draw.drawn
    refine ⟨number, hleast, ?_, hid, hrest⟩
    rw [hdraws]
    exact Nat.succ_add_eq_add_succ _ _

/-- A search comes to a free number to which the counter can go, for those before it are in use. -/
theorem seeks_of_isLeast (hleast : IsLeast (ids.freeNumbers g) number) (hfits : number + 1 < Nat.pow 2 64) :
    Seeks g ids (number - ids.next + 1) (ids.stem ++ toString number) (ids.past number) := by
  -- By induction on how far the free number is off; with each draw it comes nearer by one.
  obtain ⟨distance, rfl⟩ := Nat.exists_eq_add_of_le hleast.1.1
  rw [Nat.add_sub_cancel_left]
  induction distance generalizing ids with
  | zero => exact .found ⟨hfits, rfl⟩ hleast.1.2
  | succ distance ih =>
    have hused : g.hasConcept ids.draw.1 = true := by
      by_contra hfree
      have hle := hleast.2 ⟨Nat.le_refl ids.next, Bool.eq_false_iff.mpr hfree⟩
      omega
    have hdraw : Draws ids ids.draw.1 ids.draw.2 := ⟨by omega, rfl⟩
    have hshift : ids.draw.2.next + distance = ids.next + (distance + 1) :=
      Nat.succ_add_eq_add_succ _ _
    rw [← hshift] at hleast hfits ⊢
    rw [← hdraw.freeNumbers_eq hused] at hleast
    exact .passed hdraw hused (ih hleast hfits)

/-- A search comes to just one end. -/
theorem seeks_iff (hleast : IsLeast (ids.freeNumbers g) number) (hfits : number + 1 < Nat.pow 2 64) :
    Seeks g ids draws id rest ↔
      draws = number - ids.next + 1 ∧ id = ids.stem ++ toString number ∧ rest = ids.past number := by
  constructor
  · intro h
    obtain ⟨found, hfound, hdraws, hid, hrest⟩ := h.exists_isLeast
    obtain rfl := hfound.unique hleast
    have hle := hleast.1.1
    exact ⟨by omega, hid, hrest⟩
  · rintro ⟨rfl, rfl, rfl⟩
    exact seeks_of_isLeast hleast hfits

/-- The id that is drawn free is that of the least free number, which is no further off than there are
concepts. -/
theorem exists_drawFree (ids : IdSource) (g : Graph) :
    ∃ number, IsLeast (ids.freeNumbers g) number ∧ number ≤ ids.next + g.concepts.size ∧
      ids.drawFree g = (ids.stem ++ toString number, ids.past number) := by
  obtain ⟨count, hle, hearlier, hfree, heq⟩ := drawFree_spec ids g
  refine ⟨ids.next + count, ⟨⟨Nat.le_add_right _ _, hfree⟩, ?_⟩, Nat.add_le_add_left hle _, heq⟩
  rintro number ⟨hnumber, hnone⟩
  obtain ⟨earlier, rfl⟩ := Nat.exists_eq_add_of_le hnumber
  by_contra hlt
  have hused := hearlier earlier (by omega)
  exact Bool.false_ne_true (hnone.symm.trans hused)

/-- A search that ends comes to the id that is drawn free. -/
theorem Seeks.eq_drawFree (h : Seeks g ids draws id rest) : ids.drawFree g = (id, rest) := by
  obtain ⟨found, hfound, -, rfl, rfl⟩ := h.exists_isLeast
  obtain ⟨number, hleast, -, heq⟩ := exists_drawFree ids g
  rw [heq, hfound.unique hleast]

/-- With room in the counter for a draw per concept and one more, a search ends within that many draws. -/
theorem seeks_drawFree (hfits : ids.next + g.concepts.size + 1 < Nat.pow 2 64) :
    ∃ draws ≤ g.concepts.size + 1, Seeks g ids draws (ids.drawFree g).1 (ids.drawFree g).2 := by
  obtain ⟨number, hleast, hle, heq⟩ := exists_drawFree ids g
  refine ⟨number - ids.next + 1, by omega, ?_⟩
  rw [heq]
  exact seeks_of_isLeast hleast (by omega)

/-- What a source is asked for. -/
inductive Request where
  /-- The next id, whether or not it is in use anywhere. -/
  | draw
  /-- The next id that no concept of a graph has. -/
  | drawFree (g : Graph)
  /-- The id under which a concept with a description is added to a graph. -/
  | addFresh (g : Graph) (description : String)

/-- The most draws that a request takes. -/
def Request.mostDraws : Request → Nat
  | .draw => 1
  | .drawFree g => g.concepts.size + 1
  | .addFresh g _ => g.concepts.size + 1

/-- The id that answers a request, and the source that is left. -/
def serve (ids : IdSource) : Request → String × IdSource
  | .draw => ids.draw
  | .drawFree g => ids.drawFree g
  | .addFresh g description => ((g.addFresh ids description).1, (g.addFresh ids description).2.1)

/-- The ids that answer requests, one after the other, and the source that is left. -/
def issue : IdSource → List Request → List String × IdSource
  | ids, [] => ([], ids)
  | ids, request :: requests =>
    let (id, next) := ids.serve request
    let (issued, rest) := next.issue requests
    (id :: issued, rest)

/-- A request is answered by draws from a counter of 64 bits. -/
inductive Serves : IdSource → Request → String → IdSource → Prop where
  /-- The next id takes one draw. -/
  | draw {ids rest : IdSource} {id : String} (draw : Draws ids id rest) : Serves ids .draw id rest
  /-- A free id takes a search. -/
  | drawFree {ids rest : IdSource} {g : Graph} {draws : Nat} {id : String}
    (search : Seeks g ids draws id rest) : Serves ids (.drawFree g) id rest
  /-- So does a fresh one. -/
  | addFresh {ids rest : IdSource} {g : Graph} {draws : Nat} {id : String} (description : String)
    (search : Seeks g ids draws id rest) : Serves ids (.addFresh g description) id rest

/-- Requests are answered one after the other by draws from a counter of 64 bits. -/
inductive Issues : IdSource → List Request → List String → IdSource → Prop where
  /-- Nothing is asked for. -/
  | nil (ids : IdSource) : Issues ids [] [] ids
  /-- The first request is answered, and then the others. -/
  | cons {ids next rest : IdSource} {request : Request} {requests : List Request} {id : String}
    {issued : List String} (first : Serves ids request id next)
    (others : Issues next requests issued rest) : Issues ids (request :: requests) (id :: issued) rest

/-- At each request the counter has room for the most draws that the request takes. -/
def HasRoom : IdSource → List Request → Prop
  | _, [] => True
  | ids, request :: requests =>
    ids.next + request.mostDraws < Nat.pow 2 64 ∧ HasRoom (ids.serve request).2 requests

instance decidableHasRoom :
    (ids : IdSource) → (requests : List Request) → Decidable (ids.HasRoom requests)
  | _, [] => inferInstanceAs (Decidable True)
  | ids, request :: requests =>
    have := decidableHasRoom (ids.serve request).2 requests
    inferInstanceAs (Decidable (_ ∧ _))

variable {request : Request} {requests : List Request} {issued : List String}

/-- The ids for requests are that for the first one and those for the rest. -/
@[simp] theorem issue_cons (ids : IdSource) (request : Request) (requests : List Request) :
    ids.issue (request :: requests) =
      ((ids.serve request).1 :: ((ids.serve request).2.issue requests).1,
        ((ids.serve request).2.issue requests).2) := rfl

/-- A request is answered with the id of some number from the next one on, past which the source is then. -/
theorem exists_serve (ids : IdSource) (request : Request) :
    ∃ number, ids.next ≤ number ∧
      ids.serve request = (ids.stem ++ toString number, ids.past number) := by
  cases request with
  | draw => exact ⟨ids.next, Nat.le_refl _, rfl⟩
  | drawFree g | addFresh g description =>
    obtain ⟨number, hleast, -, heq⟩ := exists_drawFree ids g
    exact ⟨number, hleast.1.1, heq⟩

/-- Requests are answered with the ids of increasing numbers from the next one on. -/
theorem exists_issue (ids : IdSource) (requests : List Request) :
    ∃ numbers : List Nat, numbers.Pairwise (· < ·) ∧ (∀ number ∈ numbers, ids.next ≤ number) ∧
      numbers.length = requests.length ∧
      (ids.issue requests).1 = numbers.map fun number => ids.stem ++ toString number := by
  induction requests generalizing ids with
  | nil => exact ⟨[], .nil, nofun, rfl, rfl⟩
  | cons request requests ih =>
    obtain ⟨first, hle, heq⟩ := exists_serve ids request
    -- The other ids come from a source past the first number, so their numbers are greater.
    obtain ⟨numbers, hincreasing, hlater, hlength, hissued⟩ := ih (ids.past first)
    refine ⟨first :: numbers, List.pairwise_cons.mpr ⟨hlater, hincreasing⟩, ?_,
      congrArg (· + 1) hlength, ?_⟩
    · intro number hnumber
      rcases List.mem_cons.mp hnumber with rfl | hnumber
      · exact hle
      · exact Nat.le_of_succ_le (Nat.le_trans (Nat.succ_le_succ hle) (hlater number hnumber))
    · rw [issue_cons, heq, hissued]
      rfl

/-- One source issues no id twice. -/
theorem nodup_issue (ids : IdSource) (requests : List Request) : (ids.issue requests).1.Nodup := by
  obtain ⟨numbers, hincreasing, -, -, hissued⟩ := exists_issue ids requests
  have hdifferent : numbers.Nodup := hincreasing.imp Nat.ne_of_lt
  rw [hissued]
  exact hdifferent.map (numbered_injective ids.stem)

/-- Each request is answered with one id. -/
theorem length_issue (ids : IdSource) (requests : List Request) :
    (ids.issue requests).1.length = requests.length := by
  obtain ⟨numbers, -, -, hlength, hissued⟩ := exists_issue ids requests
  rw [hissued, List.length_map, hlength]

/-- What answers a request by draws is what is computed. -/
theorem Serves.eq_serve (h : Serves ids request id rest) : ids.serve request = (id, rest) := by
  cases h with
  | draw draw => exact draw.drawn
  | drawFree search => exact search.eq_drawFree
  | addFresh description search => exact search.eq_drawFree

/-- With room for the most draws that it takes, a request is answered. -/
theorem serves_serve (hfits : ids.next + request.mostDraws < Nat.pow 2 64) :
    Serves ids request (ids.serve request).1 (ids.serve request).2 := by
  cases request with
  | draw => exact .draw ⟨hfits, rfl⟩
  | drawFree g =>
    obtain ⟨draws, -, hsearch⟩ := seeks_drawFree hfits
    exact .drawFree hsearch
  | addFresh g description =>
    obtain ⟨draws, -, hsearch⟩ := seeks_drawFree hfits
    exact .addFresh description hsearch

/-- What answers requests by draws is what is computed. -/
theorem Issues.eq_issue (h : Issues ids requests issued rest) : ids.issue requests = (issued, rest) := by
  induction h with
  | nil ids => rfl
  | cons first others ih => rw [issue_cons, first.eq_serve, ih]

/-- With room for the most draws that they take, requests are answered. -/
theorem issues_issue (hroom : ids.HasRoom requests) :
    Issues ids requests (ids.issue requests).1 (ids.issue requests).2 := by
  induction requests generalizing ids with
  | nil => exact .nil ids
  | cons request requests ih => exact .cons (serves_serve hroom.1) (ih hroom.2)

/-- A concept that is added under a fresh id takes the place of no other one. -/
theorem acquires_addFresh (ids : IdSource) (g : Graph) (description : String) :
    g.Acquires (g.addFresh ids description).1 description (g.addFresh ids description).2.2 :=
  Graph.acquires_insert (hasConcept_drawFree ids g) description

/-- With room in the counter for a draw per concept and one more, the search for a free id ends, and in just
one way: after at most that many draws, with the least number from the next one on whose id is free. However
often a source is asked for its next id, for a free or for a fresh one, it answers each time and issues no
id twice, and draws from a counter of 64 bits come to the same ids, as they do where there is room for them.
So a concept that is added under a fresh id takes the place of no other one and is laid over none. -/
theorem issues_each_once (ids : IdSource) :
    (∀ g : Graph, ids.next + g.concepts.size + 1 < Nat.pow 2 64 →
      ∃ number, IsLeast (ids.freeNumbers g) number ∧
        ids.drawFree g = (ids.stem ++ toString number, ids.past number) ∧
        number - ids.next + 1 ≤ g.concepts.size + 1 ∧
        ∀ draws id rest, Seeks g ids draws id rest ↔
          draws = number - ids.next + 1 ∧ id = ids.stem ++ toString number ∧ rest = ids.past number) ∧
    (∀ requests, (ids.issue requests).1.length = requests.length ∧ (ids.issue requests).1.Nodup ∧
      (∀ issued rest, Issues ids requests issued rest → ids.issue requests = (issued, rest)) ∧
      (ids.HasRoom requests → Issues ids requests (ids.issue requests).1 (ids.issue requests).2)) ∧
    ∀ (g : Graph) (description : String),
      g.Acquires (g.addFresh ids description).1 description (g.addFresh ids description).2.2 := by
  refine ⟨fun g hfits => ?_, fun requests => ?_, acquires_addFresh ids⟩
  · obtain ⟨number, hleast, hle, heq⟩ := exists_drawFree ids g
    exact ⟨number, hleast, heq, by omega, fun draws id rest => seeks_iff hleast (by omega)⟩
  · exact ⟨length_issue ids requests, nodup_issue ids requests, fun issued rest => Issues.eq_issue,
      issues_issue⟩

/-- Four rooms, of which two are numbered behind the id of a third. -/
def rooms : Graph := Graph.empty.addConcepts [.known "r2", .known "r29", .known "r210", .known "r3"]

/-- The next id, one that no room has, one for a further room and again the next. -/
def asked : List Request := [.draw, .drawFree rooms, .addFresh rooms "attic", .draw]

/-- From the ninth id behind a stem that ends in a digit, two are in use, and the search ends with the
third draw. The requests are answered with four ids. -/
theorem issues_each_once_of_rooms :
    9 + rooms.concepts.size + 1 < Nat.pow 2 64 ∧ IsLeast (freeNumbers ⟨"r2", 9⟩ rooms) 11 ∧
    Seeks rooms ⟨"r2", 9⟩ 3 "r211" ⟨"r2", 12⟩ ∧
    HasRoom ⟨"r2", 9⟩ asked ∧ Issues ⟨"r2", 9⟩ asked ["r29", "r211", "r212", "r213"] ⟨"r2", 14⟩ ∧
    issue ⟨"r2", 9⟩ asked = (["r29", "r211", "r212", "r213"], ⟨"r2", 14⟩) := by
  have hfits : 9 + rooms.concepts.size + 1 < Nat.pow 2 64 := by decide +kernel
  have hroom : HasRoom ⟨"r2", 9⟩ asked := by decide +kernel
  obtain ⟨hsearch, hissue, -⟩ := issues_each_once ⟨"r2", 9⟩
  obtain ⟨number, hleast, heq, -, hseeks⟩ := hsearch rooms hfits
  have hnumber : number + 1 = 12 := by
    have hnext : (drawFree ⟨"r2", 9⟩ rooms).2.next = 12 := by decide +kernel
    rwa [heq] at hnext
  obtain rfl : number = 11 := Nat.succ.inj hnumber
  obtain ⟨-, -, hsame, hrun⟩ := hissue asked
  have hissued : issue ⟨"r2", 9⟩ asked = (["r29", "r211", "r212", "r213"], ⟨"r2", 14⟩) := by
    decide +kernel
  have hissues : Issues ⟨"r2", 9⟩ asked ["r29", "r211", "r212", "r213"] ⟨"r2", 14⟩ := by
    have h := hrun hroom
    rwa [hissued] at h
  exact ⟨hfits, hleast, (hseeks _ _ _).mpr ⟨rfl, by decide +kernel, rfl⟩, hroom, hissues,
    hsame _ _ hissues⟩

end IdSource

end KnowledgeGraph
