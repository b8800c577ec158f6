import KnowledgeGraph.Outline.Key

/-!
# Keys and references that come back

A key is read off what stands between its ends, and the first character tells which ends these are. A
reference that is neither empty nor too long nor the mark of unknowns alone is read as the concept with
that id. Main statement: the texts that are read as keys are just what is written for keys whose type is
not empty and, without the suffix for several targets, does not end with it; of any other type that ends
with the suffix the suffix is taken off.
-/

namespace KnowledgeGraph

/-- What stands behind a front is the rest of the text. -/
theorem behind?_eq_some {front text rest : List Char} :
    behind? front text = some rest ↔ text = front ++ rest := by
  induction front generalizing text with
  | nil =>
    rw [behind?, Option.some.injEq, List.nil_append]
  | cons c front ih =>
    cases text with
    | nil => simp [behind?]
    | cons d text =>
      rw [behind?]
      by_cases same : c = d
      · rw [if_pos same, ih, List.cons_append, List.cons.injEq]
        exact ⟨fun h => ⟨same.symm, h⟩, fun h => h.2⟩
      · rw [if_neg same, List.cons_append, List.cons.injEq]
        exact ⟨nofun, fun h => absurd h.1.symm same⟩

/-- What stands before a back is the rest of the text. -/
theorem before?_eq_some {back text rest : List Char} :
    before? back text = some rest ↔ text = rest ++ back := by
  rw [before?, Option.map_eq_some_iff]
  constructor
  · rintro ⟨reversed, h, rfl⟩
    rw [behind?_eq_some] at h
    rw [← List.reverse_inj, h, List.reverse_append, List.reverse_reverse]
  · intro h
    refine ⟨rest.reverse, behind?_eq_some.mpr ?_, List.reverse_reverse rest⟩
    rw [h, List.reverse_append]

/-- Nothing stands before a back that the text does not end with. -/
theorem before?_eq_none {back text : List Char} :
    before? back text = none ↔ ∀ rest, text ≠ rest ++ back := by
  rw [Option.eq_none_iff_forall_ne_some]
  exact forall_congr' fun rest => not_congr before?_eq_some

/-- What stands between a front and a back is the rest of the text. -/
theorem behind?_before?_eq_some {front back text rest : List Char} :
    (behind? front text >>= before? back) = some rest ↔ text = front ++ (rest ++ back) := by
  simp only [Option.bind_eq_bind, Option.bind_eq_some_iff, behind?_eq_some, before?_eq_some]
  constructor
  · rintro ⟨behind, rfl, rfl⟩
    rfl
  · intro h
    exact ⟨rest ++ back, h, rfl⟩

namespace RelationKey

variable {type text : String} {key other : RelationKey} {arrow arrow' : Arrow}
  {inner inner' : List Char}

/-- A type can be written in a key when it is not empty and does not end with the suffix for several
targets. -/
structure Writable (type : String) : Prop where
  /-- The type is not empty. -/
  ne_empty : type ≠ ""
  /-- It does not end with the suffix. -/
  ne_suffix : ∀ front, type ≠ front ++ suffix

/-- Whether a type can be written is seen by taking the suffix off. -/
theorem writable_iff : Writable type ↔ type ≠ "" ∧ before? suffix.toList type.toList = none := by
  rw [before?_eq_none]
  constructor
  · intro h
    refine ⟨h.ne_empty, fun front hfront => h.ne_suffix (String.ofList front) ?_⟩
    apply String.toList_injective
    rw [String.toList_append, String.toList_ofList, hfront]
  · rintro ⟨he, hs⟩
    refine ⟨he, fun front hfront => hs front.toList ?_⟩
    rw [hfront, String.toList_append]

instance (type : String) : Decidable (Writable type) := decidable_of_iff _ writable_iff.symm

/-- The ends of a key, one on either side of what stands between them. -/
def framed : Arrow → List Char → List Char
  | .forward, inner => ['-'] ++ (inner ++ ['-', '>'])
  | .backward, inner => ['<', '-'] ++ (inner ++ ['-'])

/-- What stands between the ends of a key: its type, with the suffix if it has one. -/
def body (key : RelationKey) : List Char := key.type.toList ++ if key.toAll then suffix.toList else []

/-- The first character tells which way a key points, and what stands between its ends is the rest. -/
theorem framed_inj : framed arrow inner = framed arrow' inner' ↔ arrow = arrow' ∧ inner = inner' := by
  cases arrow <;> cases arrow' <;> simp [framed]

/-- A key is written as its body between its ends. -/
theorem toList_text (key : RelationKey) : key.text.toList = framed key.arrow key.body := by
  obtain ⟨arrow, type, toAll⟩ := key
  cases arrow <;> cases toAll <;> simp [RelationKey.text, framed, body, String.toList_append]

/-- Keys are written alike just if they point the same way and have the same body. -/
theorem text_eq_text_iff : key.text = other.text ↔ key.arrow = other.arrow ∧ key.body = other.body := by
  rw [← String.toList_inj, toList_text, toList_text, framed_inj]

/-- A text is split into an arrow and the rest just if the rest stands between the ends of a key with this
arrow. -/
theorem split?_eq_some {text : List Char} :
    split? text = some (arrow, inner) ↔ text = framed arrow inner := by
  unfold split?
  cases hback : behind? ['<', '-'] text >>= before? ['-'] with
  | some rest =>
    have htext : text = framed .backward rest := behind?_before?_eq_some.mp hback
    rw [htext, framed_inj, Option.some.injEq, Prod.mk.injEq]
  | none =>
    have hnot : ∀ rest, text ≠ framed .backward rest := by
      intro rest htext
      rw [behind?_before?_eq_some.mpr htext] at hback
      cases hback
    simp only [Option.map_eq_some_iff, behind?_before?_eq_some, Prod.mk.injEq]
    cases arrow with
    | forward => simp [framed]
    | backward => simp [hnot]

/-- A text is read as a key just if it is what is written for the key, the type is not empty, and the type
of a key without the suffix does not end with it. -/
theorem parse_eq_ok : parse text = .ok key ↔
    key.text = text ∧ key.type ≠ "" ∧ (key.toAll = false → ∀ front, key.type ≠ front ++ suffix) := by
  have hempty : ∀ inner : List Char, inner.isEmpty = true ↔ String.ofList inner = "" :=
    fun inner => List.isEmpty_iff.trans String.ofList_eq_empty_iff.symm
  constructor
  · intro h
    unfold parse at h
    cases hs : split? text.toList with
    | none =>
      rw [hs] at h
      cases h
    | some found =>
      obtain ⟨arrow, inner⟩ := found
      have htext := split?_eq_some.mp hs
      rw [hs] at h
      cases hb : before? suffix.toList inner with
      | some type =>
        simp only [hb] at h
        split at h
        next => cases h
        next hne =>
          cases h
          refine ⟨String.toList_injective ?_, fun he => hne ((hempty type).mpr he), nofun⟩
          rw [toList_text, htext, framed_inj, before?_eq_some.mp hb]
          simp [body]
      | none =>
        simp only [hb] at h
        split at h
        next => cases h
        next hne =>
          cases h
          refine ⟨String.toList_injective ?_, fun he => hne ((hempty inner).mpr he), fun _ front hf => ?_⟩
          · rw [toList_text, htext, framed_inj]
            simp [body]
          · refine before?_eq_none.mp hb front.toList ?_
            rw [← String.toList_append, ← hf, String.toList_ofList]
  · rintro ⟨rfl, hne, hsuffix⟩
    obtain ⟨arrow, type, toAll⟩ := key
    have hfilled : type.toList.isEmpty = false := by
      rw [Bool.eq_false_iff, ne_eq, hempty, String.ofList_toList]
      exact hne
    unfold parse
    rw [split?_eq_some.mpr (toList_text _)]
    cases toAll with
    | true =>
      have htype : before? suffix.toList (body ⟨arrow, type, true⟩) = some type.toList :=
        before?_eq_some.mpr rfl
      simp only [htype, hfilled, Bool.false_eq_true, if_false, String.ofList_toList]
    | false =>
      have htype : body ⟨arrow, type, false⟩ = type.toList := List.append_nil _
      have hnone := (writable_iff.mp ⟨hne, hsuffix rfl⟩).2
      simp only [htype, hnone, hfilled, Bool.false_eq_true, if_false, String.ofList_toList]

/-- The forward key of a type that can be written is read as it is. -/
theorem parse_forward (h : Writable type) (toAll : Bool) :
    parse (RelationKey.text ⟨.forward, type, toAll⟩) = .ok ⟨.forward, type, toAll⟩ :=
  parse_eq_ok.mpr ⟨rfl, h.ne_empty, fun _ => h.ne_suffix⟩

/-- The forward keys of types that can be written are written alike only if the types are the same. -/
theorem eq_of_text_forward {other : String} (h : Writable type) (ho : Writable other) {toAll toAll' : Bool}
    (same : RelationKey.text ⟨.forward, type, toAll⟩ = RelationKey.text ⟨.forward, other, toAll'⟩) :
    type = other := by
  have hparse := parse_forward h toAll
  rw [same, parse_forward ho toAll'] at hparse
  exact (congrArg RelationKey.type (Except.ok.inj hparse)).symm

/-- An unmarked forward key is read as one of its type or of the type without the suffix, and that is
not empty. -/
theorem of_parse_forward (h : parse (RelationKey.text ⟨.forward, type, false⟩) = .ok key) :
    key.arrow = .forward ∧ key.type ≠ "" ∧
      (type = key.type ++ suffix ∨ type = key.type ∧ ∀ front, type ≠ front ++ suffix) := by
  obtain ⟨htext, hne, hsuffix⟩ := parse_eq_ok.mp h
  obtain ⟨harrow, hbody⟩ := text_eq_text_iff.mp htext
  refine ⟨harrow, hne, ?_⟩
  cases hmark : key.toAll with
  | true =>
    refine .inl (String.toList_injective ?_)
    simpa [body, hmark] using hbody.symm
  | false =>
    have hsame : type = key.type := by
      refine String.toList_injective ?_
      simpa [body, hmark] using hbody.symm
    exact .inr ⟨hsame, hsame ▸ hsuffix hmark⟩

/-- The type of a key that is read is not empty. -/
theorem type_ne_empty (h : parse text = .ok key) : key.type ≠ "" := (parse_eq_ok.mp h).2.1

/-- A text that is read as a key is what is written for this key. What is written for a key is read as the
key just if its type is not empty and, without the suffix, does not end with it. So the texts that are read
are what is written for such keys, and nothing is written for two keys that point different ways. -/
theorem reads_written :
    (∀ text key, parse text = .ok key → key.text = text) ∧
    (∀ key : RelationKey, parse key.text = .ok key ↔
      key.type ≠ "" ∧ (key.toAll = false → ∀ front, key.type ≠ front ++ suffix)) ∧
    (∀ text, (∃ key, parse text = .ok key) ↔ ∃ key : RelationKey, key.text = text ∧
      key.type ≠ "" ∧ (key.toAll = false → ∀ front, key.type ≠ front ++ suffix)) ∧
    ∀ first second : RelationKey, first.text = second.text → first.arrow = second.arrow :=
  ⟨fun _ _ h => (parse_eq_ok.mp h).1, fun _ => parse_eq_ok.trans (and_iff_right rfl),
    fun _ => exists_congr fun _ => parse_eq_ok, fun _ _ h => (text_eq_text_iff.mp h).1⟩

/-- Of two suffixes one stays with the type, and a type may be made of what ends a key. A type that ends with
the suffix is not read back: its text is that of a key with the suffix. -/
theorem reads_written_of_arrows :
    parse "-:to_all:to_all->" = .ok ⟨.forward, ":to_all", true⟩ ∧
      parse "<-->--" = .ok ⟨.backward, "->-", false⟩ ∧
      RelationKey.text ⟨.forward, "next:to_all", false⟩ = RelationKey.text ⟨.forward, "next", true⟩ ∧
      parse "-next:to_all->" ≠ .ok ⟨.forward, "next:to_all", false⟩ := by
  have hread := reads_written.2.1
  have hdashes : Writable "->-" := by decide
  refine ⟨(hread ⟨.forward, ":to_all", true⟩).mpr ⟨by decide, nofun⟩, ?_, rfl, fun h => ?_⟩
  · exact (hread ⟨.backward, "->-", false⟩).mpr ⟨hdashes.ne_empty, fun _ => hdashes.ne_suffix⟩
  · exact ((hread ⟨.forward, "next:to_all", false⟩).mp h).2 rfl "next" rfl

/-- A key states triples of its type. -/
theorem triple_type (key : RelationKey) (above below : String) :
    (key.triple above below).type = key.type := by
  unfold triple
  cases key.arrow <;> rfl

end RelationKey

namespace Concept

/-- A reference can be read when it is not empty, not too long and not the mark of unknowns alone. -/
structure Readable (reference : String) : Prop where
  /-- The reference is not empty. -/
  ne_empty : reference ≠ ""
  /-- It has no more bytes than a concept id may have. -/
  bytes_le : reference.utf8ByteSize ≤ Limits.conceptIdBytes
  /-- It is more than the mark of unknowns. -/
  ne_mark : reference ≠ "?"

/-- Whether a reference can be read is seen from its length. -/
theorem readable_iff {reference : String} : Readable reference ↔
    reference ≠ "" ∧ reference.utf8ByteSize ≤ Limits.conceptIdBytes ∧ reference ≠ "?" :=
  ⟨fun h => ⟨h.ne_empty, h.bytes_le, h.ne_mark⟩, fun h => ⟨h.1, h.2.1, h.2.2⟩⟩

instance (reference : String) : Decidable (Readable reference) :=
  decidable_of_iff _ readable_iff.symm

/-- A reference that can be read stands for the concept with that id, and no other one is read. -/
theorem parseReference_eq_ok {reference : String} {concept : Concept} :
    parseReference reference = .ok concept ↔
      Readable reference ∧ concept = ofReference reference := by
  unfold parseReference Limits.checkConceptId
  by_cases he : reference = ""
  · subst he
    exact ⟨nofun, fun h => absurd rfl h.1.ne_empty⟩
  · have hempty : ¬reference.isEmpty = true := by
      rw [String.isEmpty_iff]
      exact he
    rw [if_neg hempty]
    by_cases hl : Limits.conceptIdBytes < reference.utf8ByteSize
    · rw [if_pos hl]
      exact ⟨nofun, fun h => absurd h.1.bytes_le (Nat.not_le.mpr hl)⟩
    · rw [if_neg hl]
      by_cases hm : reference = "?"
      · simp only [if_pos hm]
        exact ⟨nofun, fun h => absurd hm h.1.ne_mark⟩
      · simp only [if_neg hm, Except.ok.injEq]
        exact ⟨fun h => ⟨⟨he, Nat.not_lt.mp hl, hm⟩, h.symm⟩, fun h => h.2.symm⟩

end Concept

end KnowledgeGraph
