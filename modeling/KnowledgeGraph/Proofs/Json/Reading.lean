import KnowledgeGraph.Json.Reader
import KnowledgeGraph.Json.Writer
import Mathlib.Data.List.DropRight
import Mathlib.Tactic.SplitIfs

/-!
# Written values are read back

Each escape is read as the character it was written for, so that a quoted text comes back as it was.
The blanks of a layout do not count, and the brackets, commas and colons are where the reader looks
for them. The form of a written value is therefore the form of the value, in either layout. Numbers
are left out: a double may come back as a neighbour.
-/

namespace KnowledgeGraph.Json

variable {layout : Layout} {level fuel : Nat} {text rest : List Char}

/-- The digit of a number below sixteen is read as this number. -/
theorem hexValue?_digitChar : ∀ n < 16, hexValue? (Nat.digitChar n) = some n := by decide

/-- The last two digits of a control character's escape are read as its code. -/
theorem hexUnit?_control {n : Nat} (h : n < 32) :
    hexUnit? '0' '0' (Nat.digitChar (n / 16)) (Nat.digitChar (n % 16)) = some n := by
  have hzero : hexValue? '0' = some 0 := by decide
  have hvalue : ((0 * 16 + 0) * 16 + n / 16) * 16 + n % 16 = n := by omega
  unfold hexUnit?
  rw [hzero, hexValue?_digitChar _ (by omega), hexValue?_digitChar _ (by omega)]
  simp only [Option.bind_eq_bind, Option.bind_some, hvalue]

/-- A short escape is read as the character it stands for. -/
theorem scanText_short {c d : Char} (h : unescape? d = some c) :
    scanText ('\\' :: d :: rest) =
      (scanText rest).map fun found => (.plain c :: found.1, found.2) := by
  have hd : d ≠ 'u' := by
    rintro rfl
    cases h
  rw [scanText, h]
  · cases scanText rest <;> rfl
  · exact fun _ _ _ _ _ hu _ => hd hu

/-- A code unit of four digits is read as this code unit. -/
theorem scanText_unit {a b c d : Char} {code : Nat} (h : hexUnit? a b c d = some code) :
    scanText ('\\' :: 'u' :: a :: b :: c :: d :: rest) =
      (scanText rest).map fun found => (.unit code :: found.1, found.2) := by
  rw [scanText, h]
  cases scanText rest <;> rfl

/-- Other characters are read as themselves. -/
theorem scanText_plain {c : Char} (hq : c ≠ '"') (hb : c ≠ '\\') (hc : ¬c.toNat < 32) :
    scanText (c :: rest) = (scanText rest).map fun found => (.plain c :: found.1, found.2) := by
  rw [scanText, if_neg hc]
  · cases scanText rest <;> rfl
  · exact hq
  · exact fun _ _ _ _ _ h _ => hb h
  · exact fun _ _ h _ => hb h

/-- A code unit that is no surrogate makes a character by itself. -/
theorem joinGlyphs_unit {code : Nat} (h : code < 0xD800) (glyphs : List Glyph) :
    joinGlyphs (.unit code :: glyphs) = (joinGlyphs glyphs).map (Char.ofNat code :: ·) := by
  cases glyphs with
  | nil => exact if_pos (.inl h)
  | cons glyph glyphs =>
    cases glyph with
    | plain c => exact if_pos (.inl h)
    | unit low => exact if_pos (.inl h)

/-- What stands for a character between quotes is read as one piece, which makes this character. -/
theorem exists_glyph_of_escape (c : Char) :
    ∃ glyph, (∀ rest, scanText (escape c ++ rest) =
        (scanText rest).map fun found => (glyph :: found.1, found.2)) ∧
      ∀ glyphs, joinGlyphs (glyph :: glyphs) = (joinGlyphs glyphs).map (c :: ·) := by
  unfold escape
  split_ifs with hq hb hn hr ht hbs hff hc
  · subst hq
    exact ⟨.plain _, fun _ => scanText_short rfl, fun _ => rfl⟩
  · subst hb
    exact ⟨.plain _, fun _ => scanText_short rfl, fun _ => rfl⟩
  · subst hn
    exact ⟨.plain _, fun _ => scanText_short rfl, fun _ => rfl⟩
  · subst hr
    exact ⟨.plain _, fun _ => scanText_short rfl, fun _ => rfl⟩
  · subst ht
    exact ⟨.plain _, fun _ => scanText_short rfl, fun _ => rfl⟩
  · subst hbs
    exact ⟨.plain _, fun _ => scanText_short rfl, fun _ => rfl⟩
  · subst hff
    exact ⟨.plain _, fun _ => scanText_short rfl, fun _ => rfl⟩
  · refine ⟨.unit c.toNat, fun _ => scanText_unit (hexUnit?_control hc), fun glyphs => ?_⟩
    rw [joinGlyphs_unit (by omega), Char.ofNat_toNat]
  · exact ⟨.plain c, fun _ => scanText_plain hq hb hc, fun _ => rfl⟩

/-- What stands for characters between quotes is read as pieces that make these characters. -/
theorem scanText_flatMap_escape (chars rest : List Char) :
    ∃ glyphs, scanText (chars.flatMap escape ++ '"' :: rest) = some (glyphs, rest) ∧
      joinGlyphs glyphs = some chars := by
  induction chars with
  | nil => exact ⟨[], rfl, rfl⟩
  | cons c chars ih =>
    obtain ⟨glyphs, hscan, hjoin⟩ := ih
    obtain ⟨glyph, hfirst, hglyph⟩ := exists_glyph_of_escape c
    refine ⟨glyph :: glyphs, ?_, ?_⟩
    · rw [List.flatMap_cons, List.append_assoc, hfirst, hscan]
      rfl
    · rw [hglyph, hjoin]
      rfl

/-- A quoted text is read as it is. -/
theorem readQuoted_quoted (value : String) :
    readQuoted (value.toList.flatMap escape ++ '"' :: rest) = some (some value, rest) := by
  obtain ⟨glyphs, hscan, hjoin⟩ := scanText_flatMap_escape value.toList rest
  unfold readQuoted
  rw [hscan]
  simp only [Option.bind_eq_bind, Option.bind_some, hjoin, Option.map_some, String.ofList_toList]

/-- Nothing is skipped in front of a character that is no blank. -/
theorem skipBlanks_cons {c : Char} (h : isBlank c = false) :
    skipBlanks (c :: rest) = c :: rest := by
  unfold skipBlanks
  rw [List.dropWhile_cons, h]
  rfl

/-- Blanks are skipped once. -/
@[simp] theorem skipBlanks_skipBlanks : skipBlanks (skipBlanks text) = skipBlanks text :=
  List.dropWhile_idempotent _ _

/-- The blanks of a layout are skipped. -/
@[simp] theorem skipBlanks_lineBreak :
    skipBlanks (layout.lineBreak level ++ rest) = skipBlanks rest := by
  refine List.dropWhile_append_of_pos fun c hc => ?_
  cases layout with
  | compact => cases hc
  | indented =>
    rcases List.mem_cons.mp hc with rfl | hc
    · rfl
    · rw [List.eq_of_mem_replicate hc]
      rfl

/-- A value is read behind the blanks. -/
theorem readValue_skipBlanks : readValue fuel (skipBlanks text) = readValue fuel text := by
  cases fuel with
  | zero => rfl
  | succ fuel => rw [readValue, readValue, skipBlanks_skipBlanks]

/-- Items are read behind the blanks. -/
theorem readItems_skipBlanks : readItems fuel (skipBlanks text) = readItems fuel text := by
  cases fuel with
  | zero => rfl
  | succ fuel => rw [readItems, readItems, readValue_skipBlanks]

/-- Members are read behind the blanks. -/
theorem readMembers_skipBlanks : readMembers fuel (skipBlanks text) = readMembers fuel text := by
  cases fuel with
  | zero => rfl
  | succ fuel => rw [readMembers, readMembers, readKey, readKey, skipBlanks_skipBlanks]

mutual

/-- A value without numbers. -/
def Numberless : Json → Prop
  | .number _ => False
  | .array items => NumberlessItems items
  | .object members => NumberlessMembers members
  | _ => True

/-- Items without numbers. -/
def NumberlessItems : List Json → Prop
  | [] => True
  | item :: items => Numberless item ∧ NumberlessItems items

/-- Members without numbers. -/
def NumberlessMembers : List (String × Json) → Prop
  | [] => True
  | (_, value) :: members => Numberless value ∧ NumberlessMembers members

end

/-- A value without numbers starts with a letter, a quote or an opening bracket. -/
theorem exists_head_of_render {value : Json} (h : value.Numberless) (layout : Layout) (level : Nat) :
    ∃ c behind, render layout level value = c :: behind ∧ isBlank c = false ∧ c ≠ ']' := by
  cases value with
  | null => exact ⟨_, _, by rw [render]; rfl, rfl, by decide⟩
  | bool truth => cases truth <;> exact ⟨_, _, by rw [render]; rfl, rfl, by decide⟩
  | number value => rw [Numberless] at h; exact h.elim
  | string text => exact ⟨_, _, by rw [render]; rfl, rfl, by decide⟩
  | array items =>
    cases items with
    | nil => exact ⟨_, _, by rw [render], rfl, by decide⟩
    | cons item items => exact ⟨_, _, by rw [render], rfl, by decide⟩
  | object members =>
    cases members with
    | nil => exact ⟨_, _, by rw [render], rfl, by decide⟩
    | cons member members => exact ⟨_, _, by rw [render], rfl, by decide⟩

/-- A key is read as it is, up to the blanks behind the colon. -/
theorem readKey_quoted (layout : Layout) (key : String) (rest : List Char) :
    ∃ behind, readKey (quoted key ++ layout.colon ++ rest) = some (some key, behind) ∧
      skipBlanks behind = skipBlanks rest := by
  have hkey : ∀ behind, readKey (quoted key ++ ':' :: behind) = some (some key, behind) := by
    intro behind
    unfold readKey quoted
    rw [List.cons_append, skipBlanks_cons rfl, List.append_assoc]
    simp only [List.cons_append, List.nil_append, readQuoted_quoted]
    simp only [Option.bind_eq_bind, Option.bind_some,
      skipBlanks_cons (show isBlank ':' = false from rfl)]
  cases layout with
  | compact => exact ⟨rest, by rw [List.append_assoc]; exact hkey rest, rfl⟩
  | indented => exact ⟨' ' :: rest, by rw [List.append_assoc]; exact hkey (' ' :: rest), rfl⟩

/-- Items are read behind a bracket that is not closed at once. -/
theorem readValue_bracket {c : Char} {behind : List Char} (h : skipBlanks text = c :: behind)
    (hc : c ≠ ']') :
    readValue (fuel + 1) ('[' :: text) =
      (readItems fuel text).map fun found => (.array found.1, found.2) := by
  rw [← readItems_skipBlanks, readValue, skipBlanks_cons rfl]
  simp only [h]
  split
  next heq => exact absurd (List.cons.inj heq).1 hc
  next => rfl

/-- Members are read behind a brace that is not closed at once. -/
theorem readValue_brace {c : Char} {behind : List Char} (h : skipBlanks text = c :: behind)
    (hc : c ≠ '}') :
    readValue (fuel + 1) ('{' :: text) =
      (readMembers fuel text).map fun found => (.object found.1, found.2) := by
  rw [← readMembers_skipBlanks, readValue, skipBlanks_cons rfl]
  simp only [h]
  split
  next heq => exact absurd (List.cons.inj heq).1 hc
  next => rfl

/-- Behind its opening bracket an array is written like items behind their first comma. -/
theorem render_array_append (item : Json) (items : List Json) :
    render layout level (.array (item :: items)) ++ rest =
      '[' :: (renderItems layout (level + 1) (item :: items) ++
        (layout.lineBreak level ++ ']' :: rest)).tail := by
  simp only [render, renderItems, List.cons_append, List.append_assoc, List.tail_cons,
    List.nil_append]

/-- Behind its opening brace an object is written like members behind their first comma. -/
theorem render_object_append (member : String × Json) (members : List (String × Json)) :
    render layout level (.object (member :: members)) ++ rest =
      '{' :: (renderMembers layout (level + 1) (member :: members) ++
        (layout.lineBreak level ++ '}' :: rest)).tail := by
  simp only [render, renderMembers, List.cons_append, List.append_assoc, List.tail_cons,
    List.nil_append]

/-- An array is longer than its items. -/
theorem length_renderItems_lt (item : Json) (items : List Json) :
    (renderItems layout (level + 1) (item :: items)).length <
      (render layout level (.array (item :: items))).length := by
  simp only [render, renderItems, List.length_cons, List.length_append]
  omega

/-- An object is longer than its members. -/
theorem length_renderMembers_lt (key : String) (value : Json) (members : List (String × Json)) :
    (renderMembers layout (level + 1) ((key, value) :: members)).length <
      (render layout level (.object ((key, value) :: members))).length := by
  simp only [render, renderMembers, List.length_cons, List.length_append]
  omega

/-- Items do not start with the closing bracket. -/
theorem exists_head_of_items {item : Json} (h : item.Numberless) (layout : Layout) (level : Nat)
    (items : List Json) (rest : List Char) :
    ∃ c behind, skipBlanks (renderItems layout level (item :: items) ++ rest).tail = c :: behind ∧
      c ≠ ']' := by
  obtain ⟨c, behind, hhead, hblank, hclose⟩ := exists_head_of_render h layout level
  refine ⟨c, behind ++ (renderItems layout level items ++ rest), ?_, hclose⟩
  rw [renderItems, List.cons_append, List.tail_cons, List.append_assoc, List.append_assoc,
    skipBlanks_lineBreak, hhead, List.cons_append, skipBlanks_cons hblank]

/-- Members do not start with the closing brace. -/
theorem exists_head_of_members (layout : Layout) (level : Nat) (key : String) (value : Json)
    (members : List (String × Json)) (rest : List Char) :
    ∃ c behind, skipBlanks (renderMembers layout level ((key, value) :: members) ++ rest).tail =
      c :: behind ∧ c ≠ '}' := by
  refine ⟨'"', key.toList.flatMap escape ++ '"' :: (layout.colon ++ (render layout level value ++
    (renderMembers layout level members ++ rest))), ?_, by decide⟩
  rw [renderMembers, List.cons_append, List.tail_cons]
  simp only [List.append_assoc, skipBlanks_lineBreak]
  rw [quoted, List.cons_append, skipBlanks_cons rfl, List.append_assoc]
  rfl

/-- A comma stands in front of each item. -/
theorem skipBlanks_renderItems (item : Json) (items : List Json) :
    skipBlanks (renderItems layout level (item :: items) ++ rest) =
      ',' :: (renderItems layout level (item :: items) ++ rest).tail := by
  rw [renderItems]
  rfl

/-- A comma stands in front of each member. -/
theorem skipBlanks_renderMembers (member : String × Json) (members : List (String × Json)) :
    skipBlanks (renderMembers layout level (member :: members) ++ rest) =
      ',' :: (renderMembers layout level (member :: members) ++ rest).tail := by
  rw [renderMembers]
  rfl

/-- Behind a comma there are further items. -/
theorem readItems_comma {item : Source} {behind : List Char}
    (hv : readValue fuel text = some (item, rest)) (hr : skipBlanks rest = ',' :: behind) :
    readItems (fuel + 1) text =
      (readItems fuel behind).map fun found => (item :: found.1, found.2) := by
  rw [readItems, hv]
  simp only [Option.bind_eq_bind, Option.bind_some, hr]

/-- The closing bracket ends the items. -/
theorem readItems_close {item : Source} {behind : List Char}
    (hv : readValue fuel text = some (item, rest)) (hr : skipBlanks rest = ']' :: behind) :
    readItems (fuel + 1) text = some ([item], behind) := by
  rw [readItems, hv]
  simp only [Option.bind_eq_bind, Option.bind_some, hr]

/-- Behind a comma there are further members. -/
theorem readMembers_comma {key : Option String} {value : Source} {middle behind : List Char}
    (hk : readKey text = some (key, middle)) (hv : readValue fuel middle = some (value, rest))
    (hr : skipBlanks rest = ',' :: behind) :
    readMembers (fuel + 1) text =
      (readMembers fuel behind).map fun found => ((key, value) :: found.1, found.2) := by
  rw [readMembers, hk]
  simp only [Option.bind_eq_bind, Option.bind_some, hv, hr]

/-- The closing brace ends the members. -/
theorem readMembers_close {key : Option String} {value : Source} {middle behind : List Char}
    (hk : readKey text = some (key, middle)) (hv : readValue fuel middle = some (value, rest))
    (hr : skipBlanks rest = '}' :: behind) :
    readMembers (fuel + 1) text = some ([(key, value)], behind) := by
  rw [readMembers, hk]
  simp only [Option.bind_eq_bind, Option.bind_some, hv, hr]

-- Fuel is measured by the length of what is written, since every step of the reader has a bracket or
-- a comma to pay for it. Items and members are looked at from behind the comma in front of them: the
-- first one has none, but behind the opening bracket it is read like those that have.
mutual

/-- A written value is read as its form. -/
theorem readValue_render (layout : Layout) : ∀ (value : Json) (level fuel : Nat)
    (rest : List Char), value.Numberless → (render layout level value).length ≤ fuel →
    readValue (fuel + 1) (render layout level value ++ rest) = some (source value, rest)
  | .null, _, _, _, _, _ => by
    rw [readValue, render]
    rfl
  | .bool true, _, _, _, _, _ => by
    rw [readValue, render]
    rfl
  | .bool false, _, _, _, _, _ => by
    rw [readValue, render]
    rfl
  | .number value, _, _, _, h, _ => by
    rw [Numberless] at h
    exact h.elim
  | .string text, _, _, rest, _, _ => by
    rw [readValue, render, quoted, List.cons_append, skipBlanks_cons rfl, List.append_assoc]
    exact congrArg (Option.map _) (readQuoted_quoted text)
  | .array [], _, _, _, _, _ => by
    rw [readValue, render]
    rfl
  | .array (item :: items), _, 0, _, _, hf => by
    rw [render] at hf
    exact absurd hf (Nat.not_succ_le_zero _)
  | .array (item :: items), level, fuel + 1, rest, h, hf => by
    rw [Numberless] at h
    have hlength : (renderItems layout (level + 1) (item :: items)).length ≤ fuel :=
      Nat.le_of_lt_succ ((length_renderItems_lt item items).trans_le hf)
    have hitems := readItems_render layout (item :: items) (level + 1) level fuel rest h hlength
      (List.cons_ne_nil item items)
    obtain ⟨c, behind, hhead, hclose⟩ := exists_head_of_items h.1 layout (level + 1) items
      (layout.lineBreak level ++ ']' :: rest)
    rw [render_array_append, readValue_bracket hhead hclose, hitems]
    rfl
  | .object [], _, _, _, _, _ => by
    rw [readValue, render]
    rfl
  | .object ((key, value) :: members), _, 0, _, _, hf => by
    rw [render] at hf
    exact absurd hf (Nat.not_succ_le_zero _)
  | .object ((key, value) :: members), level, fuel + 1, rest, h, hf => by
    rw [Numberless] at h
    have hlength : (renderMembers layout (level + 1) ((key, value) :: members)).length ≤ fuel :=
      Nat.le_of_lt_succ ((length_renderMembers_lt key value members).trans_le hf)
    have hmembers := readMembers_render layout ((key, value) :: members) (level + 1) level fuel rest
      h hlength (List.cons_ne_nil _ members)
    obtain ⟨c, behind, hhead, hclose⟩ := exists_head_of_members layout (level + 1) key value members
      (layout.lineBreak level ++ '}' :: rest)
    rw [render_object_append, readValue_brace hhead hclose, hmembers]
    rfl

/-- Written items are read as their forms, from behind the first comma. -/
theorem readItems_render (layout : Layout) : ∀ (items : List Json) (level close fuel : Nat)
    (rest : List Char), NumberlessItems items →
    (renderItems layout level items).length ≤ fuel → items ≠ [] →
    readItems (fuel + 1)
        (renderItems layout level items ++ (layout.lineBreak close ++ ']' :: rest)).tail =
      some (itemSources items, rest)
  | [], _, _, _, _, _, _, hne => absurd rfl hne
  | item :: items, _, _, 0, _, _, hf, _ => by
    rw [renderItems] at hf
    exact absurd hf (Nat.not_succ_le_zero _)
  | item :: items, level, close, fuel + 1, rest, h, hf, _ => by
    rw [NumberlessItems] at h
    simp only [renderItems, List.length_cons, List.length_append] at hf
    have hitem := readValue_render layout item level fuel
      (renderItems layout level items ++ (layout.lineBreak close ++ ']' :: rest)) h.1 (by omega)
    rw [renderItems, List.cons_append, List.tail_cons, List.append_assoc, List.append_assoc,
      ← readItems_skipBlanks, skipBlanks_lineBreak, readItems_skipBlanks]
    cases items with
    | nil =>
      rw [renderItems, List.nil_append] at hitem ⊢
      rw [readItems_close hitem (by rw [skipBlanks_lineBreak]; rfl)]
      rfl
    | cons next items =>
      have hlater := readItems_render layout (next :: items) level close fuel rest h.2
        (by omega) (List.cons_ne_nil next items)
      rw [readItems_comma hitem (skipBlanks_renderItems next items), hlater]
      rfl

/-- Written members are read as their forms, from behind the first comma. -/
theorem readMembers_render (layout : Layout) : ∀ (members : List (String × Json))
    (level close fuel : Nat) (rest : List Char), NumberlessMembers members →
    (renderMembers layout level members).length ≤ fuel → members ≠ [] →
    readMembers (fuel + 1)
        (renderMembers layout level members ++ (layout.lineBreak close ++ '}' :: rest)).tail =
      some (memberSources members, rest)
  | [], _, _, _, _, _, _, hne => absurd rfl hne
  | (key, value) :: members, _, _, 0, _, _, hf, _ => by
    rw [renderMembers] at hf
    exact absurd hf (Nat.not_succ_le_zero _)
  | (key, value) :: members, level, close, fuel + 1, rest, h, hf, _ => by
    rw [NumberlessMembers] at h
    simp only [renderMembers, List.length_cons, List.length_append] at hf
    have hvalue := readValue_render layout value level fuel
      (renderMembers layout level members ++ (layout.lineBreak close ++ '}' :: rest)) h.1 (by omega)
    obtain ⟨middle, hkey, hmiddle⟩ := readKey_quoted layout key (render layout level value ++
      (renderMembers layout level members ++ (layout.lineBreak close ++ '}' :: rest)))
    rw [← readValue_skipBlanks, ← hmiddle, readValue_skipBlanks] at hvalue
    rw [renderMembers, List.cons_append, List.tail_cons, List.append_assoc, List.append_assoc,
      List.append_assoc, List.append_assoc, ← readMembers_skipBlanks, skipBlanks_lineBreak,
      readMembers_skipBlanks, ← List.append_assoc]
    cases members with
    | nil =>
      rw [renderMembers, List.nil_append] at hkey hvalue ⊢
      rw [readMembers_close hkey hvalue (by rw [skipBlanks_lineBreak]; rfl)]
      rfl
    | cons next members =>
      have hlater := readMembers_render layout (next :: members) level close fuel rest h.2
        (by omega) (List.cons_ne_nil next members)
      rw [readMembers_comma hkey hvalue (skipBlanks_renderMembers next members), hlater]
      rfl

end

/-- The form of a written value is the form of the value. -/
theorem readSource_textIn {value : Json} (h : value.Numberless) (layout : Layout) :
    readSource (value.textIn layout) = some (source value) := by
  have hvalue := readValue_render layout value 0 (2 * (render layout 0 value).length + 1) [] h
    (by omega)
  rw [List.append_nil] at hvalue
  unfold readSource readFront textIn
  rw [String.toList_ofList, hvalue]
  rfl

end KnowledgeGraph.Json
